import Versioning.Proofs.Range.Separated

/-! Ranges without single versions.  The two pieces of an interval end and start beside the version
that was taken out, so they stay apart from each other as they do from all other intervals: what
is separated stays so, and loses that version alone. -/

namespace Versioning

theorem Cut.before_lt_after (v : Version) : Cut.before v < Cut.beside v true :=
  Cut.beside_lt_beside.mpr (.inr ⟨rfl, rfl⟩)

namespace Interval

variable {i piece : Interval} {v w : Version} (hi : i.IsOrdered) (hv : v.IsOrdered)

include hi hv

theorem contains_of_same (hw : w.IsOrdered) (hs : w.same v = true) (h : i.contains w = true) :
    i.contains v = true := by
  have hcut : Cut.before w = Cut.before v :=
    Cut.beside_congr ((Version.same_eq_true_iff hw hv).mp hs)
  rwa [contains_iff hi hv, ← hcut, ← contains_iff hi hw]

/-- What taking a version out leaves: the interval itself, or what lies on one side of it. -/
theorem mem_without (hp : piece ∈ i.without v) :
    piece.IsOrdered ∧ (i.contains v = false ∧ piece = i ∨
      i.contains v = true ∧ (piece.start = i.start ∧ piece.stop = Cut.before v ∨
        piece.start = Cut.beside v true ∧ piece.stop = i.stop)) := by
  have hb : Bound.IsOrdered ⟨some v, false⟩ := by simpa [Bound.IsOrdered] using hv
  unfold without at hp
  split at hp
  next h =>
    rcases List.mem_pair.mp hp with rfl | rfl
    · exact ⟨⟨hi.lower, hb⟩, .inr ⟨h, .inl ⟨rfl, rfl⟩⟩⟩
    · exact ⟨⟨hb, hi.upper⟩, .inr ⟨h, .inr ⟨rfl, rfl⟩⟩⟩
  next h =>
    obtain rfl : piece = i := by simpa using hp
    exact ⟨hi, .inl ⟨by simpa using h, rfl⟩⟩

theorem within_without (hp : piece ∈ i.without v) : piece.Within i := by
  intro he
  have hcut : Cut.before v < Cut.beside v true := Cut.before_lt_after v
  obtain ⟨-, ⟨-, rfl⟩ | ⟨h, ⟨hstart, hstop⟩ | ⟨hstart, hstop⟩⟩⟩ := mem_without hi hv hp
  · exact ⟨he, le_rfl, le_rfl⟩
  · obtain ⟨-, hupper⟩ := (contains_iff hi hv).mp h
    exact ⟨isEmpty_eq_false_of_contains h, hstart.ge, hstop.trans_le hupper.le⟩
  · obtain ⟨hlower, -⟩ := (contains_iff hi hv).mp h
    refine ⟨isEmpty_eq_false_of_contains h, ?_, hstop.le⟩
    rw [hstart]
    exact hlower.trans hcut.le

theorem pairwise_without : (i.without v).Pairwise Apart := by
  have hp : ∀ piece ∈ i.without v, piece.IsOrdered := fun _ hp => (mem_without hi hv hp).1
  unfold without at hp ⊢
  split
  next h =>
    rw [if_pos h] at hp
    refine List.pairwise_pair.mpr (apart_of_stop_lt_start (hp _ (.head _)) ?_ ?_)
    · exact hp _ (.tail _ (.head _))
    · exact Cut.before_lt_after v
  next => exact List.pairwise_singleton _ _

/-- The piece below the version has what is less. -/
theorem contains_below_iff (hw : w.IsOrdered) (h : i.contains v = true) :
    contains { i with upper := ⟨v, false⟩ } w = true ↔ i.contains w = true ∧ w.place < v.place := by
  have hb : Bound.IsOrdered ⟨some v, false⟩ := by simpa [Bound.IsOrdered] using hv
  have hbelow : IsOrdered { i with upper := ⟨v, false⟩ } := ⟨hi.lower, hb⟩
  have hplace : Cut.before w < Cut.before v ↔ w.place < v.place := by
    simp [Cut.beside_lt_beside]
  obtain ⟨-, hupper⟩ := (contains_iff hi hv).mp h
  rw [contains_iff hbelow hw, contains_iff hi hw, ← hplace]
  exact ⟨fun ⟨hlower, hlt⟩ => ⟨⟨hlower, hlt.trans hupper⟩, hlt⟩,
    fun ⟨⟨hlower, _⟩, hlt⟩ => ⟨hlower, hlt⟩⟩

/-- The piece above the version has what is greater. -/
theorem contains_above_iff (hw : w.IsOrdered) (h : i.contains v = true) :
    contains { i with lower := ⟨v, false⟩ } w = true ↔ i.contains w = true ∧ v.place < w.place := by
  have hb : Bound.IsOrdered ⟨some v, false⟩ := by simpa [Bound.IsOrdered] using hv
  have habove : IsOrdered { i with lower := ⟨v, false⟩ } := ⟨hb, hi.upper⟩
  have hplace : Cut.beside v true ≤ Cut.before w ↔ v.place < w.place := by
    simp [Cut.beside_le_beside]
  have hcut : Cut.before v < Cut.beside v true := Cut.before_lt_after v
  obtain ⟨hlower, -⟩ := (contains_iff hi hv).mp h
  rw [contains_iff habove hw, contains_iff hi hw, ← hplace]
  exact ⟨fun ⟨hle, hupper⟩ => ⟨⟨hlower.trans (hcut.le.trans hle), hupper⟩, hle⟩,
    fun ⟨⟨_, hupper⟩, hle⟩ => ⟨hle, hupper⟩⟩

theorem exists_contains_without_iff (hw : w.IsOrdered) :
    (∃ piece ∈ i.without v, piece.contains w = true) ↔
      i.contains w = true ∧ w.same v = false := by
  have hplace : w.same v = false ↔ w.place ≠ v.place := by
    rw [← Bool.not_eq_true, Version.same_eq_true_iff hw hv]
  rw [hplace]
  constructor
  · rintro ⟨piece, hp, h⟩
    unfold without at hp
    split at hp
    next hiv =>
      rcases List.mem_pair.mp hp with rfl | rfl
      · obtain ⟨hiw, hlt⟩ := (contains_below_iff hi hv hw hiv).mp h
        exact ⟨hiw, hlt.ne⟩
      · obtain ⟨hiw, hlt⟩ := (contains_above_iff hi hv hw hiv).mp h
        exact ⟨hiw, hlt.ne'⟩
    next hiv =>
      obtain rfl : piece = i := by simpa using hp
      refine ⟨h, fun hs => hiv (contains_of_same hi hv hw ?_ h)⟩
      exact (Version.same_eq_true_iff hw hv).mpr hs
  · rintro ⟨h, hne⟩
    unfold without
    split
    next hiv =>
      rcases hne.lt_or_gt with hlt | hlt
      · exact ⟨_, .head _, (contains_below_iff hi hv hw hiv).mpr ⟨h, hlt⟩⟩
      · exact ⟨_, .tail _ (.head _), (contains_above_iff hi hv hw hiv).mpr ⟨h, hlt⟩⟩
    next => exact ⟨i, .head _, h⟩

end Interval

namespace Range

variable {r : Range} {v w : Version}

section Exclude

variable (hr : r.IsOrdered) (hv : v.IsOrdered)

include hr hv

theorem isOrdered_without : ∀ i ∈ r.intervals.flatMap (·.without v), i.IsOrdered := by
  intro i hi
  obtain ⟨a, ha, hi⟩ := List.mem_flatMap.mp hi
  exact (Interval.mem_without (hr a ha) hv hi).1

theorem IsOrdered.exclude : (r.exclude v).IsOrdered := by
  unfold Range.exclude
  split
  · exact isOrdered_ofIntervals (isOrdered_without hr hv)
  · exact hr

theorem pairwise_without (hs : r.IsSeparated) :
    (r.intervals.flatMap (·.without v)).Pairwise Interval.Apart := by
  refine List.pairwise_flatMap.mpr ⟨fun a ha => Interval.pairwise_without (hr a ha) hv,
    hs.imp_of_mem fun {a b} ha hb hab x hx y hy => ?_⟩
  have hwx := Interval.within_without (hr a ha) hv hx
  have hwy := Interval.within_without (hr b hb) hv hy
  exact hab.of_within (hr a ha) (hr b hb) (Interval.mem_without (hr a ha) hv hx).1
    (Interval.mem_without (hr b hb) hv hy).1 hwx hwy

theorem IsSeparated.exclude (hs : r.IsSeparated) : (r.exclude v).IsSeparated := by
  unfold Range.exclude
  split
  · exact isSeparated_ofIntervals (isOrdered_without hr hv) (pairwise_without hr hv hs)
  · exact hs

/-- What is left is neither the version nor anything new, be the range separated or not. -/
theorem contains_of_contains_exclude (hw : w.IsOrdered) (h : (r.exclude v).contains w = true) :
    r.contains w = true ∧ w.same v = false := by
  unfold exclude at h
  split at h
  next =>
    obtain ⟨piece, hp, h⟩ := exists_contains_of_ofIntervals (isOrdered_without hr hv) hw h
    obtain ⟨a, ha, hp⟩ := List.mem_flatMap.mp hp
    obtain ⟨h, hs⟩ := (Interval.exists_contains_without_iff (hr a ha) hv hw).mp ⟨piece, hp, h⟩
    exact ⟨contains_iff.mpr ⟨a, ha, h⟩, hs⟩
  next hrv =>
    refine ⟨h, Bool.eq_false_of_not_eq_true fun hsame => hrv ?_⟩
    obtain ⟨a, ha, haw⟩ := contains_iff.mp h
    exact contains_iff.mpr ⟨a, ha, Interval.contains_of_same (hr a ha) hv hw hsame haw⟩

/-- A separated range loses the version alone. -/
theorem contains_exclude_iff (hs : r.IsSeparated) (hw : w.IsOrdered) :
    (r.exclude v).contains w = true ↔ r.contains w = true ∧ w.same v = false := by
  refine ⟨contains_of_contains_exclude hr hv hw, fun ⟨h, hne⟩ => ?_⟩
  unfold exclude
  split
  next =>
    rw [contains_ofIntervals_of_apart (isOrdered_without hr hv) (pairwise_without hr hv hs)]
    obtain ⟨a, ha, h⟩ := contains_iff.mp h
    obtain ⟨piece, hp, h⟩ :=
      (Interval.exists_contains_without_iff (hr a ha) hv hw).mpr ⟨h, hne⟩
    exact ⟨piece, List.mem_flatMap.mpr ⟨a, ha, hp⟩, h⟩
  next => exact h

end Exclude

section Exclusions

variable {versions : List Version} (hr : r.IsOrdered) (hv : ∀ v ∈ versions, v.IsOrdered)

include hr hv

theorem contains_of_contains_foldl_exclude (hw : w.IsOrdered)
    (h : (versions.foldl exclude r).contains w = true) :
    r.contains w = true ∧ ∀ v ∈ versions, w.same v = false := by
  induction versions generalizing r with
  | nil => exact ⟨h, List.forall_mem_nil _⟩
  | cons v versions ih =>
    obtain ⟨hv, hrest⟩ := List.forall_mem_cons.mp hv
    obtain ⟨hexclude, hall⟩ := ih (hr.exclude hv) hrest h
    obtain ⟨hcontains, hne⟩ := contains_of_contains_exclude hr hv hw hexclude
    exact ⟨hcontains, List.forall_mem_cons.mpr ⟨hne, hall⟩⟩

/-- A separated range loses all of the versions, in whatever order they are taken out. -/
theorem contains_foldl_exclude_iff (hs : r.IsSeparated) (hw : w.IsOrdered) :
    (versions.foldl exclude r).contains w = true ↔
      r.contains w = true ∧ ∀ v ∈ versions, w.same v = false := by
  induction versions generalizing r with
  | nil => simp
  | cons v versions ih =>
    obtain ⟨hv, hrest⟩ := List.forall_mem_cons.mp hv
    rw [List.foldl_cons, ih (hr.exclude hv) hrest (hs.exclude hr hv),
      contains_exclude_iff hr hv hs hw, List.forall_mem_cons, and_assoc]

end Exclusions

end Range

end Versioning
