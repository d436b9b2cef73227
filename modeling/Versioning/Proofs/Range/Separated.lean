import Versioning.Proofs.Range.Normalization

/-! Ranges whose intervals neither overlap nor are adjacent.  Such intervals stay as they are when a
range is made of them, so that what is computed piece by piece is exact. -/

namespace Versioning

namespace Interval

/-- The intervals neither overlap nor are adjacent. -/
def Apart (a b : Interval) : Prop := a.overlaps b = false ∧ a.isAdjacent b = false

instance (a b : Interval) : Decidable (a.Apart b) := inferInstanceAs (Decidable (_ ∧ _))

variable {a b : Interval}

/-- Of two intervals that hold something, one stops before the other starts. -/
theorem apart_iff (ha : a.IsOrdered) (hb : b.IsOrdered) :
    a.Apart b ↔ (a.isEmpty = false → b.isEmpty = false → a.stop < b.start ∨ b.stop < a.start) := by
  cases hea : a.isEmpty with
  | true => simp [Apart, overlaps, isAdjacent, hea]
  | false =>
    cases heb : b.isEmpty with
    | true => simp [Apart, overlaps, isAdjacent, heb]
    | false =>
      have h := not_congr (overlaps_or_isAdjacent_iff ⟨ha, hea⟩ ⟨hb, heb⟩)
      rw [Bool.not_eq_true, Bool.or_eq_false_iff, not_and_or, not_le, not_le] at h
      exact h.trans (by simp [or_comm])

/-- Whatever the interval holds lies between the cuts of the other. -/
def Within (a b : Interval) : Prop :=
  a.isEmpty = false → b.isEmpty = false ∧ b.start ≤ a.start ∧ a.stop ≤ b.stop

theorem inter_within_left (ha : a.IsOrdered) (hb : b.IsOrdered) : (a.inter b).Within a := by
  intro he
  obtain ⟨hea, heb⟩ := isEmpty_eq_false_of_inter he
  rw [start_inter ha hb hea heb, stop_inter ha hb hea heb]
  exact ⟨hea, le_max_left _ _, min_le_left _ _⟩

theorem inter_within_right (ha : a.IsOrdered) (hb : b.IsOrdered) : (a.inter b).Within b := by
  intro he
  obtain ⟨hea, heb⟩ := isEmpty_eq_false_of_inter he
  rw [start_inter ha hb hea heb, stop_inter ha hb hea heb]
  exact ⟨heb, le_max_right _ _, min_le_right _ _⟩

theorem Apart.of_within {a' b' : Interval} (h : a.Apart b) (ha : a.IsOrdered) (hb : b.IsOrdered)
    (ha' : a'.IsOrdered) (hb' : b'.IsOrdered) (hwa : a'.Within a) (hwb : b'.Within b) :
    a'.Apart b' := by
  rw [apart_iff ha' hb']
  intro hea' heb'
  obtain ⟨hea, hsa, hpa⟩ := hwa hea'
  obtain ⟨heb, hsb, hpb⟩ := hwb heb'
  rcases (apart_iff ha hb).mp h hea heb with hlt | hlt
  · exact .inl (by order)
  · exact .inr (by order)

theorem apart_of_stop_lt_start (ha : a.IsOrdered) (hb : b.IsOrdered) (h : a.stop < b.start) :
    a.Apart b :=
  (apart_iff ha hb).mpr fun _ _ => .inl h

/-- Two rays that point away from each other do not merge, in either order, if there is a version
that both of them leave out. -/
theorem union_rays_eq_none {u w : Version} {f g : Bool}
    (h : u < w ∨ u.same w = true ∧ (f || g) = false) :
    (below u f).union (above w g) = none ∧ (above w g).union (below u f) = none := by
  have hswap : Ord.compare w u = (Ord.compare u w).swap := Std.OrientedOrd.eq_swap
  obtain hlt | ⟨hsame, hflags⟩ := h
  · have hc : Ord.compare u w = .lt := hlt
    constructor <;> simp [union, overlaps, isAdjacent, inter, isEmpty, touch?, Bound.tighter, below,
      above, Version.same, hswap, hc]
  · have hc : Ord.compare u w = .eq := Ordering.isEq_iff_eq_eq.mp hsame
    obtain ⟨rfl, rfl⟩ := Bool.or_eq_false_iff.mp hflags
    constructor <;> simp [union, overlaps, isAdjacent, inter, isEmpty, touch?, Bound.tighter, below,
      above, Version.same, hswap, hc]

end Interval

theorem coalesce_eq_of_pairwise {current : Option Interval} {rest : List Interval}
    (h : (current.toList ++ rest).Pairwise fun a b => a.union b = none) :
    coalesce current rest = current.toList ++ rest := by
  fun_induction coalesce current rest with
  | case1 current => simp
  | case2 next rest ih => exact ih h
  | case3 current next rest hu ih => exact congrArg (current :: ·) (ih h.of_cons)
  | case4 current next rest merged hu ih =>
    have hnone := List.rel_of_pairwise_cons h (.head rest)
    rw [hu] at hnone
    contradiction

namespace Range

def IsOrdered (r : Range) : Prop := ∀ i ∈ r.intervals, i.IsOrdered

instance (r : Range) : Decidable r.IsOrdered :=
  inferInstanceAs (Decidable (∀ i ∈ r.intervals, i.IsOrdered))

/-- No two intervals of the range overlap or are adjacent. -/
def IsSeparated (r : Range) : Prop := r.intervals.Pairwise Interval.Apart

instance (r : Range) : Decidable r.IsSeparated :=
  inferInstanceAs (Decidable (r.intervals.Pairwise Interval.Apart))

variable {intervals : List Interval} {r s : Range} {v : Version}

theorem ofIntervals_eq_empty (h : ∀ i ∈ intervals, i.isEmpty = true) :
    ofIntervals intervals = empty := by
  have hnil : intervals.filter (!·.isEmpty) = [] := by
    rw [List.filter_eq_nil_iff]
    intro i hi
    simp [h i hi]
  rw [ofIntervals, hnil]
  rfl

/-- Of two intervals that are apart and hold something, whichever comes first, one stops before the
other starts. -/
theorem pairwise_nonempty_of_apart (h : ∀ i ∈ intervals, i.IsOrdered)
    (hp : intervals.Pairwise Interval.Apart) :
    (intervals.filter (!·.isEmpty)).Pairwise fun a b => a.stop < b.start ∨ b.stop < a.start := by
  refine (hp.filter _).imp_of_mem fun {a b} ha hb hab => ?_
  rw [List.mem_filter, Bool.not_eq_true'] at ha hb
  exact (Interval.apart_iff (h a ha.1) (h b hb.1)).mp hab ha.2 hb.2

/-- A range made of intervals of which no two merge, in either order, has just those that are not
empty. -/
theorem perm_ofIntervals_of_union
    (hp : (intervals.filter (!·.isEmpty)).Pairwise fun a b => a.union b = none ∧ b.union a = none) :
    (ofIntervals intervals).intervals.Perm (intervals.filter (!·.isEmpty)) := by
  have hperm := stableSort_perm Interval.compare (intervals.filter (!·.isEmpty))
  -- Which of two intervals comes first does not matter, so sorting does not make them merge.
  rw [← hperm.pairwise_iff fun hab => hab.symm] at hp
  have heq : coalesce none _ = _ := coalesce_eq_of_pairwise (hp.imp And.left)
  rw [ofIntervals, heq]
  exact hperm

theorem contains_ofIntervals_of_perm
    (h : (ofIntervals intervals).intervals.Perm (intervals.filter (!·.isEmpty))) :
    (ofIntervals intervals).contains v = true ↔ ∃ i ∈ intervals, i.contains v = true := by
  rw [contains_iff]
  constructor
  · rintro ⟨i, hi, hiv⟩
    exact ⟨i, List.mem_of_mem_filter (h.mem_iff.mp hi), hiv⟩
  · rintro ⟨i, hi, hiv⟩
    have he := Interval.isEmpty_eq_false_of_contains hiv
    exact ⟨i, h.mem_iff.mpr (List.mem_filter.mpr ⟨hi, by simp [he]⟩), hiv⟩

/-- Two rays that point away from each other stay two, in whichever order they are given. -/
theorem contains_ofIntervals_of_perm_rays {u w : Version} {f g : Bool}
    (h : u < w ∨ u.same w = true ∧ (f || g) = false)
    (hperm : intervals.Perm [.below u f, .above w g]) :
    (ofIntervals intervals).contains v = true ↔
      (Interval.below u f).contains v = true ∨ (Interval.above w g).contains v = true := by
  have hp : intervals.Pairwise fun a b => a.union b = none ∧ b.union a = none := by
    rw [hperm.pairwise_iff fun hab => hab.symm]
    exact List.pairwise_pair.mpr (Interval.union_rays_eq_none h)
  rw [contains_ofIntervals_of_perm (perm_ofIntervals_of_union (hp.filter _))]
  simp [hperm.mem_iff]

/-- A range made of intervals that are apart has just those that are not empty. -/
theorem perm_ofIntervals_of_apart (h : ∀ i ∈ intervals, i.IsOrdered)
    (hp : intervals.Pairwise Interval.Apart) :
    (ofIntervals intervals).intervals.Perm (intervals.filter (!·.isEmpty)) := by
  refine perm_ofIntervals_of_union ?_
  refine (pairwise_nonempty_of_apart h hp).imp_of_mem fun {a b} ha hb hab => ?_
  obtain ⟨ha, hea⟩ := List.mem_filter.mp ha
  obtain ⟨hb, heb⟩ := List.mem_filter.mp hb
  rw [Bool.not_eq_true'] at hea heb
  have ha : a.IsProper := ⟨h a ha, hea⟩
  have hb : b.IsProper := ⟨h b hb, heb⟩
  exact ⟨(Interval.union_eq_none_iff ha hb).mpr hab,
    (Interval.union_eq_none_iff hb ha).mpr hab.symm⟩

theorem isOrdered_ofIntervals (h : ∀ i ∈ intervals, i.IsOrdered) :
    (ofIntervals intervals).IsOrdered := fun i hi => (isProper_ofIntervals h i hi).ordered

theorem isSeparated_ofIntervals (h : ∀ i ∈ intervals, i.IsOrdered)
    (hp : intervals.Pairwise Interval.Apart) : (ofIntervals intervals).IsSeparated := by
  have ho := isOrdered_ofIntervals h
  have hcuts := pairwise_nonempty_of_apart h hp
  rw [← (perm_ofIntervals_of_apart h hp).pairwise_iff fun hab => hab.symm] at hcuts
  exact hcuts.imp_of_mem fun {a b} ha hb hab =>
    (Interval.apart_iff (ho a ha) (ho b hb)).mpr fun _ _ => hab

theorem contains_ofIntervals_of_apart (h : ∀ i ∈ intervals, i.IsOrdered)
    (hp : intervals.Pairwise Interval.Apart) :
    (ofIntervals intervals).contains v = true ↔ ∃ i ∈ intervals, i.contains v = true :=
  contains_ofIntervals_of_perm (perm_ofIntervals_of_apart h hp)

/-! ### Intersections -/

theorem isOrdered_pieces (hr : r.IsOrdered) (hs : s.IsOrdered) :
    ∀ i ∈ r.intervals.flatMap fun a => s.intervals.map a.inter, i.IsOrdered := by
  intro i hi
  obtain ⟨a, ha, hi⟩ := List.mem_flatMap.mp hi
  obtain ⟨b, hb, rfl⟩ := List.mem_map.mp hi
  exact (hr a ha).inter (hs b hb)

/-- Pieces of different intervals of the first range are apart as these are, and pieces of the same
one as those of the second range are. -/
theorem pairwise_pieces (hr : r.IsOrdered) (hs : s.IsOrdered) (hsr : r.IsSeparated)
    (hss : s.IsSeparated) :
    (r.intervals.flatMap fun a => s.intervals.map a.inter).Pairwise Interval.Apart := by
  refine List.pairwise_flatMap.mpr ⟨fun a ha => ?_, hsr.imp_of_mem fun {a a'} ha ha' h => ?_⟩
  · refine List.pairwise_map.mpr (hss.imp_of_mem fun {b b'} hb hb' h => ?_)
    have ho := (hr a ha).inter (hs b hb)
    have ho' := (hr a ha).inter (hs b' hb')
    have hw := Interval.inter_within_right (hr a ha) (hs b hb)
    have hw' := Interval.inter_within_right (hr a ha) (hs b' hb')
    exact h.of_within (hs b hb) (hs b' hb') ho ho' hw hw'
  · intro x hx y hy
    obtain ⟨b, hb, rfl⟩ := List.mem_map.mp hx
    obtain ⟨b', hb', rfl⟩ := List.mem_map.mp hy
    have ho := (hr a ha).inter (hs b hb)
    have ho' := (hr a' ha').inter (hs b' hb')
    have hw := Interval.inter_within_left (hr a ha) (hs b hb)
    have hw' := Interval.inter_within_left (hr a' ha') (hs b' hb')
    exact h.of_within (hr a ha) (hr a' ha') ho ho' hw hw'

theorem exists_piece_contains_iff (hr : r.IsOrdered) (hs : s.IsOrdered) (hv : v.IsOrdered) :
    (∃ i ∈ r.intervals.flatMap fun a => s.intervals.map a.inter, i.contains v = true) ↔
      r.contains v = true ∧ s.contains v = true := by
  simp only [contains_iff, List.mem_flatMap, List.mem_map]
  constructor
  · rintro ⟨_, ⟨a, ha, b, hb, rfl⟩, h⟩
    obtain ⟨hav, hbv⟩ := (Interval.contains_inter_iff (hr a ha) (hs b hb) hv).mp h
    exact ⟨⟨a, ha, hav⟩, b, hb, hbv⟩
  · rintro ⟨⟨a, ha, hav⟩, b, hb, hbv⟩
    have h := (Interval.contains_inter_iff (hr a ha) (hs b hb) hv).mpr ⟨hav, hbv⟩
    exact ⟨a.inter b, ⟨a, ha, b, hb, rfl⟩, h⟩

/-- The intersection holds only ordered versions that both ranges hold, and all of them if both are
separated. -/
theorem contains_inter_exact (hr : r.IsOrdered) (hs : s.IsOrdered) (hv : v.IsOrdered) :
    ((r.inter s).contains v = true → r.contains v = true ∧ s.contains v = true) ∧
    (r.IsSeparated → s.IsSeparated →
      ((r.inter s).contains v = true ↔ r.contains v = true ∧ s.contains v = true)) := by
  have ho := isOrdered_pieces hr hs
  constructor
  · intro h
    exact (exists_piece_contains_iff hr hs hv).mp (exists_contains_of_ofIntervals ho hv h)
  · intro hsr hss
    have hpieces := contains_ofIntervals_of_apart (v := v) ho (pairwise_pieces hr hs hsr hss)
    exact hpieces.trans (exists_piece_contains_iff hr hs hv)

/-- A prerelease of the version at which a ray is cut off stays in the intersection. -/
theorem contains_inter_exact_rays :
    let v (major : Int) : Version := .ofComponents { major }
    let rc : Version := .ofComponents { major := 5, prerelease := some "rc.1" }
    let r := ofIntervals [.above (v 4) true, .below (v 2) false, .exact (v 3)]
    let s := ofIntervals [.below (v 1) false, ⟨⟨v 1, false⟩, ⟨v 5, true⟩⟩]
    (r.IsOrdered ∧ s.IsOrdered ∧ rc.IsOrdered ∧ r.IsSeparated ∧ s.IsSeparated) ∧
      (r.inter s).contains rc = true := by
  intro v rc r s
  have h : r.IsOrdered ∧ s.IsOrdered ∧ rc.IsOrdered ∧ r.IsSeparated ∧ s.IsSeparated := by
    decide +kernel
  obtain ⟨hr, hs, hrc, hsr, hss⟩ := h
  have hboth : r.contains rc = true ∧ s.contains rc = true := by decide +kernel
  exact ⟨⟨hr, hs, hrc, hsr, hss⟩, ((contains_inter_exact hr hs hrc).2 hsr hss).mpr hboth⟩

end Range

end Versioning
