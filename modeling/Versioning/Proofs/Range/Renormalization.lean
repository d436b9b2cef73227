import Mathlib.Data.List.Pairwise
import Versioning.Proofs.Range.Separated

/-! Making a range of the intervals of a range.  Merging compares each interval with the one before
it alone, and sorting does not look at flags, so `(1,2)` comes before `[1,3]`: it is found not to
merge with what ends before 1, which the two of them would touch.  Where intervals that start at
equal versions start alike, this cannot happen, and the range stays as it is when it is made anew.
The intervals of a range never start at equal versions, so making it anew once is enough. -/

namespace Versioning

namespace Interval

/-- Where the intervals start at equal versions, both flags there are the same. -/
def StartsAlike (a b : Interval) : Prop :=
  ∀ u ∈ a.lower.version, ∀ v ∈ b.lower.version, u.same v = true →
    a.lower.inclusive = b.lower.inclusive

instance (a b : Interval) : Decidable (a.StartsAlike b) :=
  inferInstanceAs (Decidable (∀ u ∈ a.lower.version, ∀ v ∈ b.lower.version, u.same v = true →
    a.lower.inclusive = b.lower.inclusive))

instance : Std.OrientedCmp Interval.compare where
  eq_swap {a b} := by
    unfold Interval.compare
    rw [Ordering.swap_then, ← Std.OrientedOrd.eq_swap, ← Std.OrientedOrd.eq_swap]

variable {a b : Interval}

theorem StartsAlike.refl (a : Interval) : a.StartsAlike a := fun _ _ _ _ _ => rfl

instance : Std.Symm StartsAlike where
  symm a b h u hu v hv hs := by
    refine (h v hv u hu ?_).symm
    rw [Version.same, Std.OrientedOrd.eq_swap, Ordering.isEq_swap]
    exact hs

theorem StartsAlike.of_lower_eq {a' b' : Interval} (h : a.StartsAlike b) (ha : a'.lower = a.lower)
    (hb : b'.lower = b.lower) : a'.StartsAlike b' := by
  unfold StartsAlike
  rw [ha, hb]
  exact h

theorem StartsAlike.start_le (h : a.StartsAlike b) (ha : a.IsOrdered) (hb : b.IsOrdered)
    (hle : a.floor ≤ b.floor) : a.start ≤ b.start := by
  obtain ⟨⟨_ | u, f⟩, _⟩ := a <;> obtain ⟨⟨_ | v, g⟩, _⟩ := b
  · exact le_rfl
  · exact bot_le
  · exact absurd (le_bot_iff.mp hle) Cut.beside_ne_bot
  have hle : Cut.before u ≤ Cut.before v := hle
  change Cut.beside u (!f) ≤ Cut.beside v (!g)
  obtain ⟨ho, hp⟩ | ⟨ho, hp⟩ | ⟨ho, hp⟩ := Version.compare_cases (ha.lower u rfl) (hb.lower v rfl)
  · exact (Cut.beside_lt_of_place_lt hp).le
  · obtain rfl : f = g := h u rfl v rfl (by rw [Version.same, ho]; rfl)
    exact (Cut.beside_congr hp).le
  · exact absurd (Cut.beside_lt_of_place_lt hp) hle.not_gt

theorem StartsAlike.of_floor (ha : a.IsOrdered) (hb : b.IsOrdered)
    (h : a.floor = b.floor → a.lower.inclusive = b.lower.inclusive) : a.StartsAlike b := by
  intro u hu v hv hs
  obtain ⟨ho, _⟩ | ⟨_, hp⟩ | ⟨ho, _⟩ := Version.compare_cases (ha.lower u hu) (hb.lower v hv)
  · simp [Version.same, ho] at hs
  · apply h
    rw [floor, floor, Bound.floor, Bound.floor, hu, hv]
    exact Cut.beside_congr hp
  · simp [Version.same, ho] at hs

/-- What two intervals that start alike merge into starts with a bound of one of them. -/
theorem StartsAlike.lower_outer (h : a.StartsAlike b) :
    (a.outer b).lower = a.lower ∨ (a.outer b).lower = b.lower := by
  obtain ⟨⟨_ | u, f⟩, _⟩ := a <;> obtain ⟨⟨_ | v, g⟩, _⟩ := b
  · exact .inr rfl
  · exact .inr rfl
  · exact .inl rfl
  simp only [outer, Bound.looser, Side.compare]
  cases ho : Ord.compare u v with
  | lt => exact .inl rfl
  | gt => exact .inr rfl
  | eq =>
    obtain rfl : f = g := h u rfl v rfl (by rw [Version.same, ho]; rfl)
    simp

theorem union_self (h : a.IsProper) : a.union a = some a := by
  have hlt : a.start < a.stop := h.start_lt_stop
  rw [union_eq h h, if_pos ⟨hlt.le, hlt.le⟩]
  have hlooser (side : Side) (b : Bound) : b.looser side b = b := by
    obtain ⟨_ | v, f⟩ := b
    · rfl
    · cases side <;> simp [Bound.looser, Side.compare, Std.ReflCmp.compare_self]
  simp [outer, hlooser]

end Interval

/-- Intervals that do not merge, each twice in a row, are merged into themselves. -/
theorem coalesce_pairs {current : Interval} {rest : List Interval} (hr : ∀ i ∈ rest, i.IsProper)
    (h : (current :: rest).Pairwise fun a b => a.union b = none) :
    coalesce (some current) (rest.flatMap fun i => [i, i]) = current :: rest := by
  induction rest generalizing current with
  | nil => rfl
  | cons next rest ih =>
    obtain ⟨hn, hr⟩ := List.forall_mem_cons.mp hr
    obtain ⟨hcur, hrest⟩ := List.pairwise_cons.mp h
    rw [List.flatMap_cons]
    simp only [List.cons_append, List.nil_append, coalesce, hcur next (.head rest),
      Interval.union_self hn, hn.nonempty]
    exact congrArg (current :: ·) (ih hr hrest)

namespace Range

/-- No two intervals of the range merge, and it is what its intervals make, whether they are taken
alone, with none, or twice. -/
structure IsFixpoint (r : Range) : Prop where
  apart : r.intervals.Pairwise fun a b => a.union b = none ∧ b.union a = none
  renormalize : ofIntervals r.intervals = r
  union_empty : r.union empty = r
  union_self : r.union r = r

variable {intervals : List Interval} {r : Range}

/-- Each interval of the range of intervals that start alike stops before the next one starts. -/
theorem pairwise_start_ofIntervals (h : ∀ i ∈ intervals, i.IsOrdered)
    (hs : ∀ a ∈ intervals, ∀ b ∈ intervals, a.isEmpty = false → b.isEmpty = false →
      a.StartsAlike b) :
    (ofIntervals intervals).intervals.Pairwise (·.stop < ·.start) := by
  -- Merging takes lower bounds over as they are, so that what it leaves still starts alike.
  let P (i : Interval) := i.IsProper ∧ ∃ m ∈ intervals, m.isEmpty = false ∧ i.lower = m.lower
  have hmem : ∀ i ∈ stableSort Interval.compare (intervals.filter (!·.isEmpty)), P i := by
    intro i hi
    obtain ⟨hi, he⟩ := mem_sorted_iff.mp hi
    exact ⟨⟨h i hi, he⟩, i, hi, he, rfl⟩
  have halike : ∀ a b, P a → P b → a.StartsAlike b := by
    rintro a b ⟨_, m, hm, hme, ha⟩ ⟨_, n, hn, hne, hb⟩
    exact (hs m hm n hn hme hne).of_lower_eq ha hb
  have hsorted : (stableSort Interval.compare (intervals.filter (!·.isEmpty))).Pairwise
      (·.start ≤ ·.start) := by
    refine (pairwise_sorted h).imp_of_mem fun {a b} ha hb hle => ?_
    exact (halike a b (hmem a ha) (hmem b hb)).start_le (hmem a ha).1.ordered
      (hmem b hb).1.ordered hle
  refine pairwise_coalesce P Interval.start (·.stop < ·) (fun a s t => lt_of_lt_of_le)
    (fun a b c ha hb hu hc => ?_) (fun a b ha hb hle hu => ?_) (by simp) hmem (by simp) hsorted
  · obtain ⟨_, rfl⟩ := (Interval.union_eq_some_iff ha.1 hb.1).mp hu
    have hproper := ha.1.of_union hb.1 hu hc
    rcases (halike a b ha hb).lower_outer with hl | hl
    · obtain ⟨_, m, hm, hme, hma⟩ := ha
      exact ⟨⟨hproper, m, hm, hme, hl.trans hma⟩, .inl (congrArg Bound.start hl)⟩
    · obtain ⟨_, m, hm, hme, hmb⟩ := hb
      exact ⟨⟨hproper, m, hm, hme, hl.trans hmb⟩, .inr (congrArg Bound.start hl)⟩
  · have hlt : b.start < b.stop := hb.1.start_lt_stop
    refine ((Interval.union_eq_none_iff ha.1 hb.1).mp hu).resolve_right fun hba => ?_
    order

theorem isSeparated_ofIntervals_of_startsAlike (h : ∀ i ∈ intervals, i.IsOrdered)
    (hs : ∀ a ∈ intervals, ∀ b ∈ intervals, a.isEmpty = false → b.isEmpty = false →
      a.StartsAlike b) : (ofIntervals intervals).IsSeparated := by
  have ho := isOrdered_ofIntervals h
  exact (pairwise_start_ofIntervals h hs).imp_of_mem fun {a b} ha hb hlt =>
    Interval.apart_of_stop_lt_start (ho a ha) (ho b hb) hlt

/-- Intervals in order, each of which stops before the next one starts, are a range as they are. -/
theorem IsFixpoint.of_pairwise (hp : ∀ i ∈ r.intervals, i.IsProper)
    (h : r.intervals.Pairwise (·.stop < ·.start)) : r.IsFixpoint := by
  have hfilter : r.intervals.filter (!·.isEmpty) = r.intervals :=
    List.filter_eq_self.mpr fun i hi => by simp [(hp i hi).nonempty]
  have hnone : r.intervals.Pairwise fun a b => a.union b = none :=
    h.imp_of_mem fun {a b} ha hb hlt =>
      (Interval.union_eq_none_iff (hp a ha) (hp b hb)).mpr (.inl hlt)
  have hascending : r.intervals.Pairwise (Interval.compare · · = .lt) := by
    refine h.imp_of_mem fun {a b} ha hb hlt => ?_
    refine Interval.compare_eq_lt_of_floor_lt (hp a ha).ordered (hp b hb).ordered ?_
    have hstart : a.start < a.stop := (hp a ha).start_lt_stop
    have hfloor : a.floor ≤ a.start := Interval.floor_le_start
    have hstop : a.stop ≤ b.floor := Interval.le_floor_of_lt hlt
    order
  have hsort : stableSort Interval.compare r.intervals = r.intervals :=
    stableSort_eq_self hascending
  have hrenormalize : ofIntervals r.intervals = r := by
    rw [ofIntervals, hfilter, hsort]
    exact congrArg Range.mk (@coalesce_eq_of_pairwise none _ hnone)
  refine ⟨?apart, hrenormalize, ?union_empty, ?union_self⟩
  case apart =>
    refine h.imp_of_mem fun {a b} ha hb hlt => ⟨?_, ?_⟩
    · exact (Interval.union_eq_none_iff (hp a ha) (hp b hb)).mpr (.inl hlt)
    · exact (Interval.union_eq_none_iff (hp b hb) (hp a ha)).mpr (.inr hlt)
  case union_empty =>
    rw [union, empty, List.append_nil]
    exact hrenormalize
  case union_self =>
    rw [union, ofIntervals, List.filter_append, hfilter, stableSort_append_self hascending]
    refine congrArg Range.mk ?_
    cases hr : r.intervals with
    | nil => rfl
    | cons first rest =>
      rw [hr] at hp hnone
      obtain ⟨hf, hp⟩ := List.forall_mem_cons.mp hp
      rw [List.flatMap_cons]
      simp only [List.cons_append, List.nil_append, coalesce, Interval.union_self hf, hf.nonempty]
      exact coalesce_pairs hp hnone

/-- The intervals of a range start at different versions. -/
theorem startsAlike_ofIntervals (h : ∀ i ∈ intervals, i.IsOrdered) :
    ∀ a ∈ (ofIntervals intervals).intervals, ∀ b ∈ (ofIntervals intervals).intervals,
      a.StartsAlike b := by
  have hp := isProper_ofIntervals h
  refine fun a ha b hb => List.Pairwise.forall_of_forall (fun a _ => Interval.StartsAlike.refl a)
    ((pairwise_ofIntervals h).imp_of_mem fun {a b} ha hb hle => ?_) ha hb
  refine .of_floor (hp a ha).ordered (hp b hb).ordered fun he => ?_
  have hstart : a.start < a.stop := (hp a ha).start_lt_stop
  have hfloor : a.floor ≤ a.start := Interval.floor_le_start
  order

/-- Making a range anew gives one that stays as it is. -/
theorem isFixpoint_of_isOrdered (h : ∀ i ∈ intervals, i.IsOrdered) :
    (ofIntervals (ofIntervals intervals).intervals).IsFixpoint := by
  have ho := isOrdered_ofIntervals h
  refine .of_pairwise (isProper_ofIntervals ho) (pairwise_start_ofIntervals ho ?_)
  exact fun a ha b hb _ _ => startsAlike_ofIntervals h a ha b hb

variable {intervals : List (Option Interval)}

/-- The range of intervals that start alike stays as it is when it is made anew.  Any other range of
intervals with ordered bounds does so after it was made anew once. -/
theorem isFixpoint_ofOptional (h : ∀ o ∈ intervals, ∀ i ∈ o, i.IsOrdered) :
    ((∀ o ∈ intervals, ∀ a ∈ o, ∀ o' ∈ intervals, ∀ b ∈ o', a.isEmpty = false →
        b.isEmpty = false → a.StartsAlike b) → (ofOptional intervals).IsFixpoint) ∧
    (ofIntervals (ofOptional intervals).intervals).IsFixpoint := by
  have hmem : ∀ i, i ∈ intervals.filterMap id ↔ some i ∈ intervals := by simp
  have ho := isOrdered_of_mem_filterMap h
  constructor
  · intro hs
    refine .of_pairwise (isProper_ofIntervals ho) (pairwise_start_ofIntervals ho ?_)
    intro a ha b hb
    exact hs (some a) ((hmem a).mp ha) a rfl (some b) ((hmem b).mp hb) b rfl
  · exact isFixpoint_of_isOrdered ho

/-- Exclusive ends at 1 and at 2 keep intervals apart that no other one joins. -/
theorem isFixpoint_ofOptional_exclusive_ends :
    let v (major : Int) : Version := .ofComponents { major }
    let intervals : List (Option Interval) :=
      [some (.below (v 1) false), none, some ⟨⟨v 1, false⟩, ⟨v 2, false⟩⟩, some .empty,
        some ⟨⟨v 2, false⟩, ⟨v 3, true⟩⟩, some ⟨⟨v 1, false⟩, ⟨v 1, true⟩⟩,
        some (.above (v 3) true)]
    (∀ o ∈ intervals, ∀ i ∈ o, i.IsOrdered) ∧ (ofOptional intervals).IsFixpoint := by
  intro v intervals
  have h : ∀ o ∈ intervals, ∀ i ∈ o, i.IsOrdered := by decide +kernel
  exact ⟨h, (isFixpoint_ofOptional h).1 (by decide +kernel)⟩

/-- `(-∞,1)` and `[1,3]` are left beside each other, since `(1,2)` stood between them.  They merge
when the range is made anew, and all below 1 gets lost. -/
theorem exists_not_isFixpoint :
    let v (major : Int) : Version := .ofComponents { major }
    let r := ofIntervals
      [.below (v 1) false, ⟨⟨v 1, false⟩, ⟨v 2, false⟩⟩, ⟨⟨v 1, true⟩, ⟨v 3, true⟩⟩]
    ¬r.intervals.Pairwise (fun a b => a.union b = none ∧ b.union a = none) ∧
      ofIntervals r.intervals ≠ r ∧ r.union empty ≠ r ∧ r.union r ≠ r ∧
      r.contains (v 0) = true ∧ (ofIntervals r.intervals).contains (v 0) = false := by
  decide +kernel

end Range

end Versioning
