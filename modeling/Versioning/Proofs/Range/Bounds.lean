import Versioning.Proofs.Range.Constraints
import Versioning.Range.Series

/-! Where the bounds of computed ranges come from.  Merging, intersecting, complementing and taking
versions out all leave intervals that hold something and end at versions that were there before, so
that what all of these satisfy, the bounds of the result satisfy too.  No order of the versions is
needed for that. -/

namespace Versioning

namespace Interval

/-- The interval holds something, and its bounds satisfy `P` where they have versions. -/
structure IsBoundedBy (P : Version → Prop) (i : Interval) : Prop where
  nonempty : i.isEmpty = false
  lower : ∀ v ∈ i.lower.version, P v
  upper : ∀ v ∈ i.upper.version, P v

variable {P Q : Version → Prop} {a b c i : Interval} {u v : Version}

theorem IsBoundedBy.mono (h : i.IsBoundedBy P) (hPQ : ∀ v, P v → Q v) : i.IsBoundedBy Q :=
  ⟨h.nonempty, fun v hv => hPQ v (h.lower v hv), fun v hv => hPQ v (h.upper v hv)⟩

theorem eq_outer_of_union (ha : a.isEmpty = false) (hb : b.isEmpty = false)
    (h : a.union b = some c) : c = a.outer b := by
  rw [union, if_neg (by simp [ha]), if_neg (by simp [hb])] at h
  split at h
  · exact (Option.some.inj h).symm
  · cases h

theorem IsBoundedBy.of_union (ha : a.IsBoundedBy P) (hb : b.IsBoundedBy P)
    (h : a.union b = some c) (hc : c.isEmpty = false) : c.IsBoundedBy P := by
  obtain rfl := eq_outer_of_union ha.nonempty hb.nonempty h
  refine ⟨hc, fun v hv => ?_, fun v hv => ?_⟩
  · rcases Bound.version_looser .lower a.lower b.lower with hl | hl
    · exact ha.lower v (hl ▸ hv)
    · exact hb.lower v (hl ▸ hv)
  · rcases Bound.version_looser .upper a.upper b.upper with hu | hu
    · exact ha.upper v (hu ▸ hv)
    · exact hb.upper v (hu ▸ hv)

theorem IsBoundedBy.inter (ha : a.IsBoundedBy P) (hb : b.IsBoundedBy P)
    (h : (a.inter b).isEmpty = false) : (a.inter b).IsBoundedBy P := by
  have heq : a.inter b = ⟨a.lower.tighter .lower b.lower, a.upper.tighter .upper b.upper⟩ := by
    rw [Interval.inter, if_neg (by simp [ha.nonempty, hb.nonempty])]
  refine ⟨h, fun v hv => ?_, fun v hv => ?_⟩
  · rw [heq] at hv
    rcases Bound.version_tighter .lower a.lower b.lower with hl | hl
    · exact ha.lower v (hl ▸ hv)
    · exact hb.lower v (hl ▸ hv)
  · rw [heq] at hv
    rcases Bound.version_tighter .upper a.upper b.upper with hu | hu
    · exact ha.upper v (hu ▸ hv)
    · exact hb.upper v (hu ▸ hv)

theorem IsBoundedBy.without (h : i.IsBoundedBy P) (hv : P v) (ha : a ∈ i.without v)
    (he : a.isEmpty = false) : a.IsBoundedBy P := by
  have hlimit : ∀ u ∈ some v, P u := by simpa using hv
  unfold Interval.without at ha
  split at ha
  · rcases List.mem_pair.mp ha with rfl | rfl
    · exact ⟨he, h.lower, hlimit⟩
    · exact ⟨he, hlimit, h.upper⟩
  · obtain rfl := List.mem_singleton.mp ha
    exact h

theorem isBoundedBy_of_interval? {op : Operator} (hv : P v) (ha : a ∈ op.interval? v)
    (he : a.isEmpty = false) : a.IsBoundedBy P := by
  obtain ⟨hlower, hupper⟩ := Operator.version_of_mem_interval? ha
  exact ⟨he, fun u hu => hlower u hu ▸ hv, fun u hu => hupper u hu ▸ hv⟩

end Interval

namespace Range

/-- The intervals hold something, and their bounds satisfy `P` where they have versions. -/
def BoundedBy (P : Version → Prop) (r : Range) : Prop := ∀ i ∈ r.intervals, i.IsBoundedBy P

variable {P Q : Version → Prop} {intervals : List Interval} {r s : Range} {u v : Version}

theorem boundedBy_ofIntervals (h : ∀ i ∈ intervals, i.isEmpty = false → i.IsBoundedBy P) :
    (ofIntervals intervals).BoundedBy P :=
  forall_ofIntervals (fun _ _ _ ha hb => ha.of_union hb) h

theorem boundedBy_ofInterval {i : Interval} (hl : ∀ v ∈ i.lower.version, P v)
    (hu : ∀ v ∈ i.upper.version, P v) : (ofInterval i).BoundedBy P := by
  refine boundedBy_ofIntervals fun j hj he => ?_
  obtain rfl := List.mem_singleton.mp hj
  exact ⟨he, hl, hu⟩

theorem boundedBy_empty : empty.BoundedBy P := List.forall_mem_nil _

theorem boundedBy_unbounded : unbounded.BoundedBy P :=
  boundedBy_ofInterval (by simp [Interval.unbounded]) (by simp [Interval.unbounded])

theorem boundedBy_upTo (hu : P u) (hv : P v) : (upTo u v).BoundedBy P :=
  boundedBy_ofInterval (by simpa [Interval.upTo] using hu) (by simpa [Interval.upTo] using hv)

/-- A gap ends where the intervals beside it do. -/
theorem bounds_of_mem_gapsAfter {g : Interval} (h : ∀ i ∈ intervals, i.IsBoundedBy P)
    (hg : some g ∈ gapsAfter intervals) :
    (∀ v ∈ g.lower.version, P v) ∧ ∀ v ∈ g.upper.version, P v := by
  fun_induction gapsAfter intervals with
  | case1 => cases hg
  | case2 last =>
    obtain ⟨_, _, rfl⟩ := Option.map_eq_some_iff.mp (List.mem_singleton.mp hg).symm
    exact ⟨(h last (.head [])).upper, by simp⟩
  | case3 a b rest ih =>
    obtain ⟨ha, hrest⟩ := List.forall_mem_cons.mp h
    rcases List.mem_cons.mp hg with hg | hg
    · unfold Interval.between? at hg
      split at hg
      · obtain rfl := Option.some.inj hg
        exact ⟨ha.upper, (hrest b (.head rest)).lower⟩
      · cases hg
    · exact ih hrest hg

namespace BoundedBy

theorem mono (h : r.BoundedBy P) (hPQ : ∀ v, P v → Q v) : r.BoundedBy Q :=
  fun i hi => (h i hi).mono hPQ

theorem union (hr : r.BoundedBy P) (hs : s.BoundedBy P) : (r.union s).BoundedBy P :=
  boundedBy_ofIntervals fun i hi _ => (List.mem_append.mp hi).elim (hr i) (hs i)

theorem inter (hr : r.BoundedBy P) (hs : s.BoundedBy P) : (r.inter s).BoundedBy P := by
  refine boundedBy_ofIntervals fun i hi he => ?_
  obtain ⟨a, ha, hi⟩ := List.mem_flatMap.mp hi
  obtain ⟨b, hb, rfl⟩ := List.mem_map.mp hi
  exact (hr a ha).inter (hs b hb) he

theorem compl (h : r.BoundedBy P) : r.compl.BoundedBy P := by
  obtain ⟨_ | ⟨first, rest⟩⟩ := r
  · exact boundedBy_unbounded
  · refine boundedBy_ofIntervals fun g hg he => ?_
    have hg : some g = first.before? ∨ some g ∈ gapsAfter (first :: rest) := by simpa using hg
    rcases hg with hg | hg
    · obtain ⟨_, _, rfl⟩ := Option.map_eq_some_iff.mp hg.symm
      exact ⟨he, by simp, (h first (.head rest)).lower⟩
    · obtain ⟨hl, hu⟩ := bounds_of_mem_gapsAfter h hg
      exact ⟨he, hl, hu⟩

theorem exclude (h : r.BoundedBy P) (hv : P v) : (r.exclude v).BoundedBy P := by
  unfold Range.exclude
  split
  · refine boundedBy_ofIntervals fun i hi he => ?_
    obtain ⟨a, ha, hi⟩ := List.mem_flatMap.mp hi
    exact (h a ha).without hv hi he
  · exact h

end BoundedBy

theorem boundedBy_ofConstraints {constraints : List (Operator × Version)}
    (h : ∀ c ∈ constraints, P c.2) : (ofConstraints constraints).BoundedBy P := by
  refine ofConstraints_induction ?_ boundedBy_empty boundedBy_unbounded fun r hr v hv =>
    hr.exclude (forall_mem_excluded h v hv)
  refine boundedBy_ofIntervals fun i hi he => ?_
  obtain ⟨c, hc, hi⟩ := List.mem_filterMap.mp hi
  exact Interval.isBoundedBy_of_interval? (h c hc) hi he

theorem boundedBy_series {component : Component} (hv : P v) (hend : P (v.increment component)) :
    (series v component).BoundedBy P := boundedBy_upTo hv hend

end Range

end Versioning
