import Versioning.Proofs.Range.Separated

/-! The complement of a range holds just what the range does not.  The gaps around its intervals
run from cut to cut as these do, so that gaps and intervals together cover all places once.  The
gaps are apart from each other, since an interval that holds something lies between any two. -/

namespace Versioning

namespace Bound

variable {b : Bound}

theorem IsOrdered.flip (h : b.IsOrdered) : b.flip.IsOrdered := h

theorem stop_flip (h : b.version.isSome = true) : b.flip.stop = b.start := by
  obtain ⟨v, hv⟩ := Option.isSome_iff_exists.mp h
  simp [flip, stop, start, hv]

theorem start_flip (h : b.version.isSome = true) : b.flip.start = b.stop := by
  obtain ⟨v, hv⟩ := Option.isSome_iff_exists.mp h
  simp [flip, stop, start, hv]

end Bound

namespace Interval

/-- The interval runs from one cut to the other. -/
structure Spans (i : Interval) (start stop : Cut) : Prop where
  ordered : i.IsOrdered
  start_eq : i.start = start
  stop_eq : i.stop = stop

variable {a b g : Interval}

theorem spans_before? (ha : a.IsOrdered) (h : a.before? = some g) : g.Spans ⊥ a.start := by
  obtain ⟨v, hv, rfl⟩ := Option.map_eq_some_iff.mp h
  exact ⟨⟨by simp [Bound.IsOrdered], ha.lower.flip⟩, rfl, Bound.stop_flip (by simp [hv])⟩

theorem spans_after? (ha : a.IsOrdered) (h : a.after? = some g) : g.Spans a.stop ⊤ := by
  obtain ⟨v, hv, rfl⟩ := Option.map_eq_some_iff.mp h
  exact ⟨⟨ha.upper.flip, by simp [Bound.IsOrdered]⟩, Bound.start_flip (by simp [hv]), rfl⟩

theorem spans_between? (ha : a.IsOrdered) (hb : b.IsOrdered) (h : a.between? b = some g) :
    g.Spans a.stop b.start := by
  unfold between? at h
  split at h
  next hs =>
    obtain rfl := Option.some.inj h
    obtain ⟨hu, hl⟩ := Bool.and_eq_true_iff.mp hs
    exact ⟨⟨ha.upper.flip, hb.lower.flip⟩, Bound.start_flip hu, Bound.stop_flip hl⟩
  next => contradiction

theorem exists_before? (h : a.start ≠ ⊥) : ∃ g, a.before? = some g := by
  rw [Ne, start_eq_bot_iff] at h
  obtain ⟨v, hv⟩ := Option.ne_none_iff_exists'.mp h
  exact ⟨_, by rw [before?, hv, Option.map_some]⟩

theorem exists_after? (h : a.stop ≠ ⊤) : ∃ g, a.after? = some g := by
  rw [Ne, stop_eq_top_iff] at h
  obtain ⟨v, hv⟩ := Option.ne_none_iff_exists'.mp h
  exact ⟨_, by rw [after?, hv, Option.map_some]⟩

theorem exists_between? (h : a.stop ≤ b.start) : ∃ g, a.between? b = some g := by
  have hu : a.stop ≠ ⊤ := fun hu => start_ne_top (top_le_iff.mp (hu ▸ h))
  have hl : b.start ≠ ⊥ := fun hl => stop_ne_bot (le_bot_iff.mp (hl ▸ h))
  rw [Ne, stop_eq_top_iff, ← Ne, ← Option.isSome_iff_ne_none] at hu
  rw [Ne, start_eq_bot_iff, ← Ne, ← Option.isSome_iff_ne_none] at hl
  exact ⟨_, by rw [between?, hu, hl]; rfl⟩

end Interval

/-! ### Gaps after the first interval -/

namespace Range

variable {a g i : Interval} {rest intervals : List Interval}

/-- Intervals that hold something, each of which stops before those after it start. -/
structure Ascends (intervals : List Interval) : Prop where
  proper : ∀ i ∈ intervals, i.IsProper
  pairwise : intervals.Pairwise (·.stop ≤ ·.start)

theorem ascends_cons_iff :
    Ascends (a :: rest) ↔ a.IsProper ∧ (∀ i ∈ rest, a.stop ≤ i.start) ∧ Ascends rest := by
  constructor
  · rintro ⟨hp, h⟩
    obtain ⟨ha, hr⟩ := List.forall_mem_cons.mp hp
    obtain ⟨hstop, h⟩ := List.pairwise_cons.mp h
    exact ⟨ha, hstop, hr, h⟩
  · rintro ⟨ha, hstop, hr, h⟩
    exact ⟨List.forall_mem_cons.mpr ⟨ha, hr⟩, List.pairwise_cons.mpr ⟨hstop, h⟩⟩

theorem gapsAfter_above (h : Ascends (a :: rest)) (hg : some g ∈ gapsAfter (a :: rest)) :
    g.IsOrdered ∧ a.stop ≤ g.start := by
  induction rest generalizing a with
  | nil =>
    obtain ⟨ha, _⟩ := ascends_cons_iff.mp h
    have hs := Interval.spans_after? ha.ordered (by simpa [gapsAfter, eq_comm] using hg)
    exact ⟨hs.ordered, hs.start_eq.ge⟩
  | cons b rest ih =>
    obtain ⟨ha, hstop, hr⟩ := ascends_cons_iff.mp h
    obtain ⟨hb, _⟩ := ascends_cons_iff.mp hr
    rcases List.mem_cons.mp hg with hg | hg
    · have hs := Interval.spans_between? ha.ordered hb.ordered hg.symm
      exact ⟨hs.ordered, hs.start_eq.ge⟩
    · have hab : a.stop ≤ b.start := hstop b (.head rest)
      have hbb : b.start < b.stop := hb.start_lt_stop
      obtain ⟨ho, hge⟩ := ih hr hg
      exact ⟨ho, by order⟩

theorem pairwise_gapsAfter (h : Ascends (a :: rest)) :
    ((gapsAfter (a :: rest)).filterMap id).Pairwise (·.stop < ·.start) := by
  induction rest generalizing a with
  | nil => cases h : a.after? <;> simp [gapsAfter, h]
  | cons b rest ih =>
    obtain ⟨ha, hstop, hr⟩ := ascends_cons_iff.mp h
    obtain ⟨hb, _⟩ := ascends_cons_iff.mp hr
    obtain ⟨g, hg⟩ := Interval.exists_between? (hstop b (.head rest))
    have hs := Interval.spans_between? ha.ordered hb.ordered hg
    rw [gapsAfter, hg, List.filterMap_cons_some (f := id) rfl]
    refine List.pairwise_cons.mpr ⟨fun g' hg' => ?_, ih hr⟩
    have hge := (gapsAfter_above hr (by simpa using hg')).2
    have hbb : b.start < b.stop := hb.start_lt_stop
    exact hs.stop_eq.trans_lt (hbb.trans_le hge)

theorem gapsAfter_disjoint (h : Ascends (a :: rest)) (hi : i ∈ a :: rest)
    (hg : some g ∈ gapsAfter (a :: rest)) : i.stop ≤ g.start ∨ g.stop ≤ i.start := by
  induction rest generalizing a with
  | nil =>
    obtain rfl : i = a := by simpa using hi
    exact .inl (gapsAfter_above h hg).2
  | cons b rest ih =>
    obtain ⟨ha, hstop, hr⟩ := ascends_cons_iff.mp h
    obtain ⟨hb, hbstop, _⟩ := ascends_cons_iff.mp hr
    rcases List.mem_cons.mp hi with rfl | hi
    · exact .inl (gapsAfter_above h hg).2
    rcases List.mem_cons.mp hg with hg | hg
    · right
      rw [(Interval.spans_between? ha.ordered hb.ordered hg.symm).stop_eq]
      rcases List.mem_cons.mp hi with rfl | hi
      · exact le_rfl
      · exact hb.start_lt_stop.le.trans (hbstop i hi)
    · exact ih hr hi hg

theorem gapsAfter_cover {x : Cut} (hx : x ≠ ⊤) (h : Ascends (a :: rest)) (hax : a.start ≤ x) :
    (∃ i ∈ a :: rest, i.start ≤ x ∧ x < i.stop) ∨
      ∃ g, some g ∈ gapsAfter (a :: rest) ∧ g.start ≤ x ∧ x < g.stop := by
  induction rest generalizing a with
  | nil =>
    obtain ⟨ha, _⟩ := ascends_cons_iff.mp h
    by_cases hlt : x < a.stop
    · exact .inl ⟨a, .head [], hax, hlt⟩
    · have hle : a.stop ≤ x := not_lt.mp hlt
      obtain ⟨g, hg⟩ := Interval.exists_after? (ne_top_of_le_ne_top hx hle)
      obtain ⟨_, hstart, hstop⟩ := Interval.spans_after? ha.ordered hg
      refine .inr ⟨g, by simp [gapsAfter, hg], ?_⟩
      rw [hstart, hstop]
      exact ⟨hle, hx.lt_top⟩
  | cons b rest ih =>
    obtain ⟨ha, hstop, hr⟩ := ascends_cons_iff.mp h
    obtain ⟨hb, _⟩ := ascends_cons_iff.mp hr
    by_cases hlt : x < a.stop
    · exact .inl ⟨a, .head _, hax, hlt⟩
    by_cases hbx : b.start ≤ x
    · rcases ih hr hbx with ⟨i, hi, hix⟩ | ⟨g, hg, hgx⟩
      · exact .inl ⟨i, .tail a hi, hix⟩
      · exact .inr ⟨g, .tail _ hg, hgx⟩
    · obtain ⟨g, hg⟩ := Interval.exists_between? (hstop b (.head rest))
      obtain ⟨_, hgstart, hgstop⟩ := Interval.spans_between? ha.ordered hb.ordered hg
      refine .inr ⟨g, by simp [gapsAfter, hg], ?_⟩
      rw [hgstart, hgstop]
      exact ⟨not_lt.mp hlt, not_le.mp hbx⟩

/-! ### All gaps -/

/-- What lies before, between and after the intervals. -/
def gaps : List Interval → List (Option Interval)
  | [] => [some .unbounded]
  | first :: rest => first.before? :: gapsAfter (first :: rest)

theorem compl_eq (r : Range) : r.compl = ofOptional (gaps r.intervals) := by
  obtain ⟨_ | ⟨first, rest⟩⟩ := r
  · rfl
  · rfl

theorem isOrdered_gap (h : Ascends intervals) (hg : some g ∈ gaps intervals) : g.IsOrdered := by
  cases intervals with
  | nil =>
    obtain rfl : g = .unbounded := by simpa [gaps] using hg
    decide +kernel
  | cons a rest =>
    rcases List.mem_cons.mp hg with hg | hg
    · exact (Interval.spans_before? (ascends_cons_iff.mp h).1.ordered hg.symm).ordered
    · exact (gapsAfter_above h hg).1

/-- An interval that holds something lies between any two gaps. -/
theorem pairwise_gaps (h : Ascends intervals) :
    ((gaps intervals).filterMap id).Pairwise (·.stop < ·.start) := by
  cases intervals with
  | nil => exact List.pairwise_singleton _ _
  | cons a rest =>
    have hrest := pairwise_gapsAfter h
    obtain ⟨ha, _⟩ := ascends_cons_iff.mp h
    cases hg : a.before? with
    | none => simpa [gaps, hg] using hrest
    | some g =>
      rw [gaps, hg, List.filterMap_cons_some (f := id) rfl]
      refine List.pairwise_cons.mpr ⟨fun g' hg' => ?_, hrest⟩
      have hge := (gapsAfter_above h (by simpa using hg')).2
      rw [(Interval.spans_before? ha.ordered hg).stop_eq]
      exact ha.start_lt_stop.trans_le hge

/-- No place lies both in an interval and in a gap. -/
theorem gap_disjoint (h : Ascends intervals) (hi : i ∈ intervals) (hg : some g ∈ gaps intervals) :
    i.stop ≤ g.start ∨ g.stop ≤ i.start := by
  cases intervals with
  | nil => contradiction
  | cons a rest =>
    rcases List.mem_cons.mp hg with hg | hg
    · obtain ⟨ha, hstop, _⟩ := ascends_cons_iff.mp h
      right
      rw [(Interval.spans_before? ha.ordered hg.symm).stop_eq]
      rcases List.mem_cons.mp hi with rfl | hi
      · exact le_rfl
      · exact ha.start_lt_stop.le.trans (hstop i hi)
    · exact gapsAfter_disjoint h hi hg

/-- Every place lies in an interval or in a gap. -/
theorem gap_cover {x : Cut} (hx : x ≠ ⊤) (h : Ascends intervals) :
    (∃ i ∈ intervals, i.start ≤ x ∧ x < i.stop) ∨
      ∃ g, some g ∈ gaps intervals ∧ g.start ≤ x ∧ x < g.stop := by
  cases intervals with
  | nil => exact .inr ⟨.unbounded, .head [], bot_le, hx.lt_top⟩
  | cons a rest =>
    by_cases hax : a.start ≤ x
    · rcases gapsAfter_cover hx h hax with hi | ⟨g, hg, hgx⟩
      · exact .inl hi
      · exact .inr ⟨g, .tail _ hg, hgx⟩
    · have hlt : x < a.start := not_le.mp hax
      obtain ⟨g, hg⟩ := Interval.exists_before? (ne_bot_of_gt hlt)
      obtain ⟨_, hstart, hstop⟩ := Interval.spans_before? (ascends_cons_iff.mp h).1.ordered hg
      refine .inr ⟨g, by simp [gaps, hg], ?_⟩
      rw [hstart, hstop]
      exact ⟨bot_le, hlt⟩

/-! ### Complements -/

section Complement

variable {r : Range} {v : Version} (h : Ascends r.intervals)

include h

theorem isOrdered_gaps : ∀ g ∈ (gaps r.intervals).filterMap id, g.IsOrdered := by
  intro g hg
  exact isOrdered_gap h (by simpa using hg)

theorem apart_gaps : ((gaps r.intervals).filterMap id).Pairwise Interval.Apart :=
  (pairwise_gaps h).imp_of_mem fun {g g'} hg hg' hlt =>
    Interval.apart_of_stop_lt_start (isOrdered_gaps h g hg) (isOrdered_gaps h g' hg') hlt

theorem contains_compl_iff (hv : v.IsOrdered) :
    r.compl.contains v = true ↔ r.contains v = false := by
  rw [compl_eq, ofOptional, contains_ofIntervals_of_apart (isOrdered_gaps h) (apart_gaps h),
    ← Bool.not_eq_true, contains_iff]
  constructor
  · rintro ⟨g, hg, hgv⟩ ⟨i, hi, hiv⟩
    rw [Interval.contains_iff (isOrdered_gaps h g hg) hv] at hgv
    rw [Interval.contains_iff (h.proper i hi).ordered hv] at hiv
    obtain ⟨hgl, hgu⟩ := hgv
    obtain ⟨hil, hiu⟩ := hiv
    rcases gap_disjoint h hi (by simpa using hg) with hd | hd
    · order
    · order
  · intro hr
    rcases gap_cover (x := Cut.before v) Cut.beside_ne_top h with ⟨i, hi, hix⟩ | ⟨g, hg, hgx⟩
    · exact absurd ⟨i, hi, (Interval.contains_iff (h.proper i hi).ordered hv).mpr hix⟩ hr
    · exact ⟨g, by simpa using hg, (Interval.contains_iff (isOrdered_gap h hg) hv).mpr hgx⟩

theorem inter_compl_eq_empty : r.inter r.compl = empty := by
  apply ofIntervals_eq_empty
  intro i hi
  obtain ⟨a, ha, hi⟩ := List.mem_flatMap.mp hi
  obtain ⟨g, hg, rfl⟩ := List.mem_map.mp hi
  -- The gaps are apart, so the complement has no other intervals than them.
  rw [compl_eq, ofOptional] at hg
  have hg := (perm_ofIntervals_of_apart (isOrdered_gaps h) (apart_gaps h)).mem_iff.mp hg
  have hg := List.mem_of_mem_filter hg
  rw [Interval.isEmpty_inter_iff (h.proper a ha).ordered (isOrdered_gaps h g hg)]
  rcases gap_disjoint h ha (by simpa using hg) with hd | hd
  · exact (min_le_left _ _).trans (hd.trans (le_max_right _ _))
  · exact (min_le_right _ _).trans (hd.trans (le_max_left _ _))

end Complement

theorem ascends_ofIntervals (h : ∀ i ∈ intervals, i.IsOrdered) :
    Ascends (ofIntervals intervals).intervals where
  proper := isProper_ofIntervals h
  pairwise := (pairwise_ofIntervals h).imp fun hab => hab.trans Interval.floor_le_start

/-- The complement of a range of intervals with ordered bounds holds just the ordered versions that
the range does not hold, and has no interval in common with it. -/
theorem compl_exact {intervals : List (Option Interval)}
    (h : ∀ o ∈ intervals, ∀ i ∈ o, i.IsOrdered) :
    (∀ v : Version, v.IsOrdered → ((ofOptional intervals).compl.contains v = true ↔
      (ofOptional intervals).contains v = false)) ∧
    ((ofOptional intervals).inter (ofOptional intervals).compl).intervals = [] := by
  have hasc := ascends_ofIntervals (isOrdered_of_mem_filterMap h)
  constructor
  · intro v hv
    exact contains_compl_iff hasc hv
  · exact congrArg Range.intervals (inter_compl_eq_empty hasc)

/-- The gap between a prerelease of 2 and the point 2 holds the prerelease. -/
theorem compl_exact_point :
    let v (major : Int) : Version := .ofComponents { major }
    let rc : Version := .ofComponents { major := 2, prerelease := some "rc.1" }
    let intervals : List (Option Interval) :=
      [some (.above (v 3) false), none, some (.exact (v 2)), some ⟨⟨v 1, false⟩, ⟨rc, false⟩⟩]
    (∀ o ∈ intervals, ∀ i ∈ o, i.IsOrdered) ∧ rc.IsOrdered ∧
      (ofOptional intervals).compl.contains rc = true := by
  intro v rc intervals
  have h : ∀ o ∈ intervals, ∀ i ∈ o, i.IsOrdered := by decide +kernel
  have hrc : rc.IsOrdered := by decide +kernel
  exact ⟨h, hrc, ((compl_exact h).1 rc hrc).mpr (by decide +kernel)⟩

end Range

end Versioning
