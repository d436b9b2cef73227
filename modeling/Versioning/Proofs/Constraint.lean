import Versioning.Proofs.Range.Satisfaction
import Versioning.Proofs.Uri.Grammar
import Versioning.Proofs.Version.Grammar

/-! A constraint that stands alone: as a test of a version, as an interval, as a range, and as a
text.  The test compares two versions, while the interval and the range compare with bounds; they
answer alike, since no more than two versions are ever compared, so that the order need not be
transitive.  An exclusion leaves two rays, which do not merge again. -/

namespace Versioning

namespace Range

theorem contains_unbounded_exclude (v w : Version) :
    (unbounded.exclude w).contains v = Operator.notEqual.holds (compare v w) := by
  have hrays : unbounded.exclude w = ofIntervals [.below w false, .above w false] := rfl
  have hsame : w.same w = true := by simp [Version.same]
  have hless : (Interval.below w false).contains v = Operator.less.holds (compare v w) :=
    Operator.contains_interval? rfl
  have hgreater : (Interval.above w false).contains v = Operator.greater.holds (compare v w) :=
    Operator.contains_interval? rfl
  rw [hrays, Bool.eq_iff_iff, contains_ofIntervals_of_perm_rays (.inr ⟨hsame, rfl⟩) (.refl _),
    hless, hgreater]
  cases compare v w <;> simp [Operator.holds]

theorem contains_ofConstraints_singleton (op : Operator) (v w : Version) :
    (ofConstraints [(op, w)]).contains v = op.holds (compare v w) := by
  cases hi : op.interval? w with
  | none =>
    obtain rfl := Operator.interval?_eq_none_iff.mp hi
    exact contains_unbounded_exclude v w
  | some i =>
    rw [ofConstraints_singleton hi, contains_ofInterval, Operator.contains_interval? hi]

theorem run_build_singleton (c : Constraint) :
    (build [c]).run = (Version.parse c.version).map fun w => ofConstraints [(c.operator, w)] := by
  rw [build, Lookup.run_bind, Lookup.run_mapM]
  simp only [List.mapM_cons, run_resolve]
  cases Version.parse c.version <;> rfl

end Range

namespace Constraint

variable {c : Constraint} {v w : Version}

theorem admits_of_parse (h : Version.parse c.version = .ok w) :
    c.admits v = .ok (c.operator.holds (compare v w)) := by
  rw [admits, h]
  rfl

theorem admits_of_parse_eq_error {e : FormatError} (h : Version.parse c.version = .error e) :
    c.admits v = .error (.version c.version) := by
  rw [admits, h, Version.eq_of_parse_eq_error h]
  rfl

theorem interval?_of_not_isExclusion (h : c.isExclusion = false) :
    c.interval? = (Version.parse c.version).map c.operator.interval? := by
  rw [interval?, if_neg (by simp [h])]

theorem map_contains_interval? (h : c.isExclusion = false) (v : Version) :
    c.interval?.map (Option.map (·.contains v)) = (c.admits v).map some := by
  rw [interval?_of_not_isExclusion h]
  cases hw : Version.parse c.version with
  | error e =>
    rw [admits, hw]
    rfl
  | ok w =>
    obtain ⟨i, hi⟩ : ∃ i, c.operator.interval? w = some i := by
      refine Option.ne_none_iff_exists'.mp fun hnone => ?_
      exact of_decide_eq_false h (Operator.interval?_eq_none_iff.mp hnone)
    rw [admits_of_parse hw, ← Operator.contains_interval? hi]
    exact congrArg (Except.ok ∘ Option.map (Interval.contains · v)) hi

theorem map_contains_build (c : Constraint) (v : Version) :
    (Range.build [c]).run.map (·.contains v) = c.admits v := by
  rw [Range.run_build_singleton]
  cases hw : Version.parse c.version with
  | error e =>
    rw [admits, hw]
    rfl
  | ok w =>
    rw [admits_of_parse hw, ← Range.contains_ofConstraints_singleton]
    rfl

theorem parse_render_of_parse (h : Version.parse c.version = .ok w) :
    parse c.render = .ok c := by
  have hresolved : ofResolved (c.operator, w) = c := by
    rw [ofResolved, (Version.parse_eq_ok_iff.mp h).2]
  rw [← hresolved]
  exact parse_render (Version.isShown_of_parse h)

/-- A version satisfies a constraint just if the range of the constraint holds it, and just if the
interval of the constraint does, unless there is none since the constraint takes a version out.
This needs nothing of the version, nor of the order.  If the version of the constraint cannot be
read, all of these fail for that reason; if it can, the constraint is what its text shows. -/
theorem build_singleton_satisfaction (c : Constraint) (v : Version) :
    (Range.build [c]).run.map (·.contains v) = c.admits v ∧
    (c.isExclusion = false →
      c.interval?.map (Option.map (·.contains v)) = (c.admits v).map some) ∧
    (∀ shown, Version.parse shown = .ok v → c.satisfiedBy shown = c.admits v) ∧
    ((∃ w, Version.parse c.version = .ok w) →
      (∃ answer, c.admits v = .ok answer) ∧ parse c.render = .ok c) ∧
    ((¬∃ w, Version.parse c.version = .ok w) → c.admits v = .error (.version c.version)) := by
  refine ⟨map_contains_build c v, fun h => map_contains_interval? h v,
    fun _ => c.satisfiedBy_eq_admits, ?_, fun h => ?_⟩
  · rintro ⟨w, hw⟩
    exact ⟨⟨_, admits_of_parse hw⟩, parse_render_of_parse hw⟩
  · cases hw : Version.parse c.version with
    | error e => exact admits_of_parse_eq_error hw
    | ok w => exact absurd ⟨w, hw⟩ h

/-- Three versions each of which comes before the next, and the last before the first: the one that
is taken out, one that is bounded from above, and a constraint whose version cannot be read. -/
theorem build_singleton_satisfaction_cycle :
    let v (identifier : String) : Version := .ofComponents
      { major := 1, minor := some 0, patch := some 0, prerelease := some identifier }
    let excluded : Constraint := ⟨.notEqual, "1.0.0-1a"⟩
    let below : Constraint := ⟨.less, "1.0.0-2"⟩
    let unreadable : Constraint := ⟨.greater, "1 0"⟩
    (v "2" < v "10" ∧ v "10" < v "1a" ∧ v "1a" < v "2") ∧
      (Range.build [excluded]).run.map (·.contains (v "2")) = .ok true ∧
      parse excluded.render = .ok excluded ∧
      below.interval?.map (Option.map (·.contains (v "1a"))) = .ok (some true) ∧
      below.satisfiedBy "1.0.0-1a" = .ok true ∧
      (Range.build [unreadable]).run.map (·.contains (v "2")) = .error (.version "1 0") := by
  intro v excluded below unreadable
  have hexcluded : Version.parse "1.0.0-1a" = .ok (v "1a") := by decide +kernel
  have hbelow : Version.parse "1.0.0-2" = .ok (v "2") := by decide +kernel
  have hunreadable : ¬∃ w, Version.parse unreadable.version = .ok w := by
    rw [Version.exists_parse_iff]
    decide +kernel
  obtain ⟨hbuild, -, -, hread, -⟩ := build_singleton_satisfaction excluded (v "2")
  obtain ⟨-, hinterval, htest, -, -⟩ := build_singleton_satisfaction below (v "1a")
  obtain ⟨hfails, -, -, -, herror⟩ := build_singleton_satisfaction unreadable (v "2")
  have hbelow' : below.admits (v "1a") = .ok true := by
    rw [admits, hbelow]
    decide +kernel
  refine ⟨by decide +kernel, ?_, (hread ⟨_, hexcluded⟩).2, ?_, ?_, ?_⟩
  · rw [hbuild, admits, hexcluded]
    decide +kernel
  · rw [hinterval rfl, hbelow']
    rfl
  · rw [htest _ hexcluded, hbelow']
  · rw [hfails, herror hunreadable]

end Constraint

end Versioning
