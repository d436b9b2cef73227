import Versioning.Proofs.Range.Normalization
import Versioning.Proofs.Version.Reader

/-! What two intervals share and what they merge into, told by the versions at their ends, and how
an interval and the range made of it answer for a text.  A merged interval takes of each side the
bound that admits more, but only where there is one: a ray and the ray against it merge into what
lies between their ends, and lose the rest. -/

namespace Versioning

/-! ### Bounds -/

theorem Side.compare_swap (side : Side) (u v : Version) :
    side.compare u v = (side.compare v u).swap := by
  cases side <;> exact Std.OrientedOrd.eq_swap

theorem Side.isEq_compare (side : Side) (u v : Version) :
    (side.compare u v).isEq = u.same v := by
  cases side with
  | lower => rfl
  | upper => rw [Version.same, Std.OrientedOrd.eq_swap, Side.compare, Ordering.isEq_swap]

namespace Bound

/-- The bound has a version, and `v` lies further inside, or is equal to it and belongs to the
bound. -/
def IsMetBy (side : Side) (b : Bound) (v : Version) : Prop :=
  ∃ limit ∈ b.version, side.compare limit v = .lt ∨ limit.same v = true ∧ b.inclusive = true

instance (side : Side) (b : Bound) (v : Version) : Decidable (b.IsMetBy side v) :=
  inferInstanceAs (Decidable (∃ limit ∈ b.version, _))

/-- One of two bounds is met, or neither has a version. -/
def EitherIsMetBy (side : Side) (a b : Bound) (v : Version) : Prop :=
  a.version = none ∧ b.version = none ∨ a.IsMetBy side v ∨ b.IsMetBy side v

instance (side : Side) (a b : Bound) (v : Version) : Decidable (EitherIsMetBy side a b v) :=
  inferInstanceAs (Decidable (_ ∨ _))

variable {side : Side} {a b : Bound} {v : Version}

theorem eitherIsMetBy_comm (side : Side) (a b : Bound) (v : Version) :
    EitherIsMetBy side a b v ↔ EitherIsMetBy side b a v :=
  or_congr and_comm or_comm

theorem isMetBy_iff : b.IsMetBy side v ↔ b.version ≠ none ∧ b.admits side v = true := by
  cases h : b.version with
  | none => simp [IsMetBy, h]
  | some limit =>
    simp only [IsMetBy, admits, h, side.compare_swap v limit, ← side.isEq_compare]
    cases hc : side.compare limit v <;> simp [hc]

section Ordered

variable (ha : a.IsOrdered) (hb : b.IsOrdered) (hv : v.IsOrdered)

include hb hv

theorem isMetBy_lower_iff : b.IsMetBy .lower v ↔ b.start ≠ ⊥ ∧ b.start ≤ Cut.before v := by
  rw [isMetBy_iff, admits_lower hb hv, Ne, Ne, start_eq_bot_iff]

theorem isMetBy_upper_iff : b.IsMetBy .upper v ↔ b.stop ≠ ⊤ ∧ Cut.before v < b.stop := by
  rw [isMetBy_iff, admits_upper hb hv, Ne, Ne, stop_eq_top_iff]

include ha

theorem start_looser_le_iff :
    (a.looser .lower b).start ≤ Cut.before v ↔ EitherIsMetBy .lower a b v := by
  rw [start_looser ha hb, Cut.outerStart_le_iff, start_eq_bot_iff, start_eq_bot_iff,
    ← isMetBy_lower_iff ha hv, ← isMetBy_lower_iff hb hv, EitherIsMetBy]

theorem lt_stop_looser_iff :
    Cut.before v < (a.looser .upper b).stop ↔ EitherIsMetBy .upper a b v := by
  rw [stop_looser ha hb, Cut.lt_outerStop_iff Cut.beside_ne_top, stop_eq_top_iff, stop_eq_top_iff,
    ← isMetBy_upper_iff ha hv, ← isMetBy_upper_iff hb hv, EitherIsMetBy]

end Ordered

end Bound

namespace Interval

variable {a b c i : Interval} {v : Version} {text : String}

/-! ### Intersections -/

/-- The intersection of two intervals holds just what both of them hold, and is empty in the one
order if it is in the other.  Then they do not overlap, and no ordered version lies in both. -/
theorem inter_exact (ha : a.IsOrdered) (hb : b.IsOrdered) :
    (∀ v : Version, v.IsOrdered →
      ((a.inter b).contains v = true ↔ a.contains v = true ∧ b.contains v = true)) ∧
    ((a.inter b).isEmpty = true ↔ (b.inter a).isEmpty = true) ∧
    ((a.inter b).isEmpty = true → a.overlaps b = false ∧ b.overlaps a = false ∧
      ∀ v : Version, v.IsOrdered → ¬(a.contains v = true ∧ b.contains v = true)) := by
  have hcomm : (a.inter b).isEmpty = true ↔ (b.inter a).isEmpty = true := by
    rw [isEmpty_inter_iff ha hb, isEmpty_inter_iff hb ha, min_comm, max_comm]
  refine ⟨fun v hv => contains_inter_iff ha hb hv, hcomm, fun he => ⟨?_, ?_, fun v hv h => ?_⟩⟩
  · rw [overlaps, he, Bool.not_true, Bool.and_false]
  · rw [overlaps, hcomm.mp he, Bool.not_true, Bool.and_false]
  · rw [← contains_inter_iff ha hb hv, contains_eq_false_of_isEmpty he] at h
    contradiction

/-- A ray that ends without its version, and flagged where it does not end, against that version
alone. -/
theorem inter_exact_touching :
    let v : Version := .ofComponents { major := 2 }
    let a : Interval := ⟨⟨none, false⟩, ⟨v, false⟩⟩
    a.IsOrdered ∧ (exact v).IsOrdered ∧ a.overlaps (exact v) = false ∧
      (exact v).overlaps a = false ∧ ((exact v).inter a).isEmpty = true ∧
        ¬(a.contains v = true ∧ (exact v).contains v = true) := by
  intro v a
  have ha : a.IsOrdered := by decide +kernel
  have hb : (exact v).IsOrdered := by decide +kernel
  have he : (a.inter (exact v)).isEmpty = true := by decide +kernel
  obtain ⟨-, hcomm, hdisjoint⟩ := inter_exact ha hb
  obtain ⟨hab, hba, hnone⟩ := hdisjoint he
  exact ⟨ha, hb, hab, hba, hcomm.mp he, hnone v (by decide +kernel)⟩

/-! ### Unions -/

/-- The interval ends below where the other begins, without touching it: both have versions there,
and these are in order, or equal without belonging to either interval. -/
def LiesBelow (a b : Interval) : Prop :=
  ∃ max ∈ a.upper.version, ∃ min ∈ b.lower.version,
    max < min ∨ max.same min = true ∧ a.upper.inclusive = false ∧ b.lower.inclusive = false

instance (a b : Interval) : Decidable (a.LiesBelow b) :=
  inferInstanceAs (Decidable (∃ max ∈ a.upper.version, ∃ min ∈ b.lower.version, _))

theorem liesBelow_iff (ha : a.IsOrdered) (hb : b.IsOrdered) :
    a.LiesBelow b ↔ a.stop < b.start := by
  obtain ⟨_, ⟨_ | u, f⟩⟩ := a <;> obtain ⟨⟨_ | v, g⟩, _⟩ := b
  · simp [LiesBelow, start, stop, Bound.start, Bound.stop]
  · simp [LiesBelow, start, stop, Bound.start, Bound.stop]
  · simp [LiesBelow, start, stop, Bound.start, Bound.stop]
  have hu : u.IsOrdered := ha.upper u rfl
  have hv : v.IsOrdered := hb.lower v rfl
  simp only [LiesBelow, start, stop, Bound.start, Bound.stop, Option.elim_some, Option.mem_def,
    Option.some.injEq, exists_eq_left', Version.lt_iff_place_lt hu hv,
    Version.same_eq_true_iff hu hv, Cut.beside_lt_beside]
  cases f <;> cases g <;> simp

section Proper

variable (ha : a.IsProper) (hb : b.IsProper)

include ha hb

theorem union_eq_none_iff_liesBelow : a.union b = none ↔ a.LiesBelow b ∨ b.LiesBelow a := by
  rw [union_eq_none_iff ha hb, liesBelow_iff ha.ordered hb.ordered,
    liesBelow_iff hb.ordered ha.ordered]

theorem contains_union_iff (h : a.union b = some c) (hv : v.IsOrdered) :
    c.contains v = true ↔ Bound.EitherIsMetBy .lower a.lower b.lower v ∧
      Bound.EitherIsMetBy .upper a.upper b.upper v := by
  obtain ⟨-, rfl⟩ := (union_eq_some_iff ha hb).mp h
  rw [contains_iff (ha.ordered.outer hb.ordered) hv,
    ← Bound.start_looser_le_iff ha.ordered.lower hb.ordered.lower hv,
    ← Bound.lt_stop_looser_iff ha.ordered.upper hb.ordered.upper hv]
  rfl

/-- Two intervals that hold something merge, in either order, unless one lies below the other.  What
they merge into holds the versions that meet one of the lower and one of the upper bounds, as far as
there are any.  Each of these lies in one of the two intervals; and if these have versions on the
same sides, it holds all that lie in one of them. -/
theorem union_exact :
    (a.union b = none ↔ b.union a = none) ∧
    (a.union b = none ↔ a.LiesBelow b ∨ b.LiesBelow a) ∧
    (¬(a.LiesBelow b ∨ b.LiesBelow a) → ∃ c d, a.union b = some c ∧ b.union a = some d ∧
      ∀ v : Version, v.IsOrdered →
        (c.contains v = true ↔ Bound.EitherIsMetBy .lower a.lower b.lower v ∧
          Bound.EitherIsMetBy .upper a.upper b.upper v) ∧
        (d.contains v = true ↔ c.contains v = true) ∧
        (c.contains v = true → a.contains v = true ∨ b.contains v = true) ∧
        (a.SameSides b → (c.contains v = true ↔ a.contains v = true ∨ b.contains v = true))) := by
  have hnone := union_eq_none_iff_liesBelow ha hb
  have hnone' := union_eq_none_iff_liesBelow hb ha
  refine ⟨hnone.trans (or_comm.trans hnone'.symm), hnone, fun hmeet => ?_⟩
  obtain ⟨c, hc⟩ := Option.ne_none_iff_exists'.mp (mt hnone.mp hmeet)
  obtain ⟨d, hd⟩ := Option.ne_none_iff_exists'.mp (mt (hnone'.trans or_comm).mp hmeet)
  refine ⟨c, d, hc, hd, fun v hv => ⟨contains_union_iff ha hb hc hv, ?_, ?_, fun hsides => ?_⟩⟩
  · rw [contains_union_iff hb ha hd hv, contains_union_iff ha hb hc hv]
    exact and_congr (Bound.eitherIsMetBy_comm ..) (Bound.eitherIsMetBy_comm ..)
  · exact ha.contains_of_union hb hv hc
  · exact ⟨ha.contains_of_union hb hv hc, (ha.union_of_sameSides hb hsides hc).2.2 v hv⟩

end Proper

/-- A ray and the ray against it, which merge into what lies between their ends; and two intervals
that end where the other begins, neither with the version there. -/
theorem union_exact_rays :
    let v (major : Int) : Version := .ofComponents { major }
    let a := above (v 1) true
    let b := below (v 3) false
    let d : Interval := ⟨⟨v 3, false⟩, ⟨v 4, true⟩⟩
    let e : Interval := ⟨⟨v 1, true⟩, ⟨v 3, false⟩⟩
    a.IsProper ∧ b.IsProper ∧ d.IsProper ∧ e.IsProper ∧ e.union d = none ∧ d.union e = none ∧
      ∃ c, a.union b = some c ∧ c.contains (v 2) = true ∧ a.contains (v 4) = true ∧
        c.contains (v 4) = false := by
  intro v a b d e
  have ha : a.IsProper := ⟨by decide +kernel, rfl⟩
  have hb : b.IsProper := ⟨by decide +kernel, rfl⟩
  have hd : d.IsProper := ⟨by decide +kernel, by decide +kernel⟩
  have he : e.IsProper := ⟨by decide +kernel, by decide +kernel⟩
  obtain ⟨hcomm, hnone, -⟩ := union_exact he hd
  have hed : e.union d = none := hnone.mpr (by decide +kernel)
  obtain ⟨-, -, hmerge⟩ := union_exact ha hb
  obtain ⟨c, _, hc, _, hexact⟩ := hmerge (by decide +kernel)
  refine ⟨ha, hb, hd, he, hed, hcomm.mp hed, c, hc, ?_, by decide +kernel, ?_⟩
  · exact (hexact (v 2) (by decide +kernel)).1.mpr (by decide +kernel)
  · rw [← Bool.not_eq_true, (hexact (v 4) (by decide +kernel)).1]
    decide +kernel

/-! ### Texts -/

theorem isEmpty_of_isUnbounded (h : i.isUnbounded = true) : i.isEmpty = false := by
  simp only [isUnbounded, Bool.and_eq_true, Option.isNone_iff_eq_none] at h
  simp [isEmpty, h]

theorem contains_of_isUnbounded (h : i.isUnbounded = true) : i.contains v = true := by
  rw [contains, isEmpty_of_isUnbounded h]
  simp only [isUnbounded, Bool.and_eq_true, Option.isNone_iff_eq_none] at h
  simp [Bound.admits, h]

theorem containsText_of_parse (h : Version.parse text = .ok v) :
    i.containsText text = .ok (i.contains v) := by
  unfold containsText
  split
  next hempty => rw [contains_eq_false_of_isEmpty hempty]
  next =>
    split
    next hunbounded => rw [contains_of_isUnbounded hunbounded]
    next => rw [h, Except.map]

end Interval

namespace Range

/-- The range made of an interval reads every text that it is asked about, while the interval itself
does so only if its bounds decide something.  So both answer alike for a text that shows a version;
any other is refused by the range, and by the interval unless it is empty or unbounded. -/
theorem containsText_ofInterval (i : Interval) (text : String) :
    (∀ v, Version.parse text = .ok v → i.containsText text = .ok (i.contains v) ∧
      (ofInterval i).containsText text = .ok (i.contains v)) ∧
    (∀ e, Version.parse text = .error e →
      (ofInterval i).containsText text = .error (.version text) ∧
      (i.isEmpty = false → i.isUnbounded = false →
        i.containsText text = .error (.version text)) ∧
      (i.isEmpty = true → i.containsText text = .ok false) ∧
      (i.isUnbounded = true → i.containsText text = .ok true)) := by
  refine ⟨fun v hv => ⟨Interval.containsText_of_parse hv, ?_⟩, fun e he => ?_⟩
  · rw [containsText, hv, Except.map, contains_ofInterval]
  · obtain rfl := Version.eq_of_parse_eq_error he
    refine ⟨?_, fun hempty hunbounded => ?_, fun hempty => ?_, fun hunbounded => ?_⟩
    · rw [containsText, he, Except.map]
    · rw [Interval.containsText, hempty, hunbounded, he]
      rfl
    · rw [Interval.containsText, if_pos hempty]
    · rw [Interval.containsText, Interval.isEmpty_of_isUnbounded hunbounded, hunbounded]
      rfl

/-- A bounded interval against the two that read no text. -/
theorem containsText_ofInterval_texts :
    let i : Interval := .upTo (.ofComponents { major := 1 }) (.ofComponents { major := 2 })
    i.containsText "1.x" = .ok true ∧ (ofInterval i).containsText "1.x" = .ok true ∧
      i.containsText "x" = .error (.version "x") ∧
      Interval.empty.containsText "x" = .ok false ∧
      Interval.unbounded.containsText "x" = .ok true := by
  intro i
  let v : Version := ⟨{ major := 1, minor := some 0 }, "1.x"⟩
  have hv : Version.parse "1.x" = .ok v := by decide +kernel
  have hx : Version.parse "x" = .error (.version "x") := by decide +kernel
  have hcontains : i.contains v = true := by decide +kernel
  obtain ⟨hinterval, hrange⟩ := (containsText_ofInterval i "1.x").1 v hv
  rw [hcontains] at hinterval hrange
  obtain ⟨-, hbounded, -⟩ := (containsText_ofInterval i "x").2 _ hx
  obtain ⟨-, -, hempty, -⟩ := (containsText_ofInterval .empty "x").2 _ hx
  obtain ⟨-, -, -, hunbounded⟩ := (containsText_ofInterval .unbounded "x").2 _ hx
  exact ⟨hinterval, hrange, hbounded (by decide +kernel) rfl, hempty (by decide +kernel),
    hunbounded rfl⟩

/-- Where no bound decides anything, the interval answers for a text that its range refuses. -/
theorem exists_containsText_ne :
    ∃ text, Version.parse text = .error (.version text) ∧
      Interval.unbounded.containsText text = .ok true ∧
      (ofInterval .unbounded).containsText text = .error (.version text) ∧
      Interval.empty.containsText text = .ok false ∧
      (ofInterval .empty).containsText text = .error (.version text) := by
  refine ⟨"x", ?_, ?_, ?_, ?_, ?_⟩ <;> decide +kernel

end Range

end Versioning
