import Versioning.Proofs.Interval.Algebra
import Versioning.Range.Basic

/-! What merging sorted intervals keeps.  A list of any intervals becomes one whose members hold
something, ascend, and end before the next one begins.  No version comes in; and if all intervals
have versions on the same sides, none gets lost.  Only ordered versions count here: a version that
is not may lie both below one version and above a greater one. -/

namespace Versioning

namespace Interval

/-- Both intervals have a lower version or neither has, and likewise for the upper one. -/
def SameSides (a b : Interval) : Prop :=
  a.lower.version.isSome = b.lower.version.isSome ∧ a.upper.version.isSome = b.upper.version.isSome

instance (a b : Interval) : Decidable (a.SameSides b) := inferInstanceAs (Decidable (_ ∧ _))

variable {a b c : Interval} {v : Version}

theorem sameSides_iff :
    a.SameSides b ↔ (a.start = ⊥ ↔ b.start = ⊥) ∧ (a.stop = ⊤ ↔ b.stop = ⊤) := by
  simp only [SameSides, start, stop, Bound.start_eq_bot_iff, Bound.stop_eq_top_iff]
  cases a.lower.version <;> cases b.lower.version <;> cases a.upper.version <;>
    cases b.upper.version <;> simp

theorem SameSides.outer (h : a.SameSides b) : (a.outer b).SameSides a := by
  constructor
  · rcases Bound.version_looser .lower a.lower b.lower with hv | hv
    · exact congrArg Option.isSome hv
    · exact (congrArg Option.isSome hv).trans h.1.symm
  · rcases Bound.version_looser .upper a.upper b.upper with hv | hv
    · exact congrArg Option.isSome hv
    · exact (congrArg Option.isSome hv).trans h.2.symm

theorem SameSides.symm (h : a.SameSides b) : b.SameSides a := ⟨h.1.symm, h.2.symm⟩

theorem SameSides.trans (h : a.SameSides b) (h' : b.SameSides c) : a.SameSides c :=
  ⟨h.1.trans h'.1, h.2.trans h'.2⟩

namespace IsProper

theorem of_union (ha : a.IsProper) (hb : b.IsProper) (h : a.union b = some c)
    (hc : c.isEmpty = false) : c.IsProper := by
  obtain ⟨_, rfl⟩ := (union_eq_some_iff ha hb).mp h
  exact ⟨ha.ordered.outer hb.ordered, hc⟩

theorem floor_of_union (ha : a.IsProper) (hb : b.IsProper) (h : a.union b = some c) :
    c.floor = a.floor ∨ c.floor = b.floor := by
  obtain ⟨_, rfl⟩ := (union_eq_some_iff ha hb).mp h
  exact floor_outer

/-- Of two intervals in order of their lower versions, the first stops before the second starts if
they do not merge. -/
theorem stop_le_floor_of_union_eq_none (ha : a.IsProper) (hb : b.IsProper)
    (hle : a.floor ≤ b.floor) (h : a.union b = none) : a.stop ≤ b.floor := by
  rcases (union_eq_none_iff ha hb).mp h with h | h
  · exact le_floor_of_lt h
  · have hstop : b.stop ≤ a.floor := le_floor_of_lt h
    have hstart : b.floor ≤ b.start := floor_le_start
    have hlt : b.start < b.stop := hb.start_lt_stop
    order

/-- A merge invents nothing: what lay between the two intervals would keep them apart. -/
theorem contains_of_union (ha : a.IsProper) (hb : b.IsProper) (hv : v.IsOrdered)
    (h : a.union b = some c) (hc : c.contains v = true) :
    a.contains v = true ∨ b.contains v = true := by
  obtain ⟨⟨hab, hba⟩, rfl⟩ := (union_eq_some_iff ha hb).mp h
  rw [contains_iff (ha.ordered.outer hb.ordered) hv, start_outer ha.ordered hb.ordered,
    stop_outer ha.ordered hb.ordered] at hc
  rw [contains_iff ha.ordered hv, contains_iff hb.ordered hv]
  have hstart := Cut.le_of_outerStart_le hc.1
  have hstop := Cut.lt_of_lt_outerStop hc.2
  by_cases hsa : a.start ≤ Cut.before v <;> by_cases hpa : Cut.before v < a.stop
  · exact .inl ⟨hsa, hpa⟩
  · exact .inr ⟨by order, hstop.resolve_left hpa⟩
  · exact .inr ⟨hstart.resolve_left hsa, by order⟩
  · exact .inr ⟨hstart.resolve_left hsa, hstop.resolve_left hpa⟩

/-- A merge of intervals with versions on the same sides loses nothing. -/
theorem union_of_sameSides (ha : a.IsProper) (hb : b.IsProper) (hs : a.SameSides b)
    (h : a.union b = some c) :
    c.IsProper ∧ c.SameSides a ∧ ∀ v : Version, v.IsOrdered →
      a.contains v = true ∨ b.contains v = true → c.contains v = true := by
  obtain ⟨_, rfl⟩ := (union_eq_some_iff ha hb).mp h
  have ho := ha.ordered.outer hb.ordered
  have hsides := sameSides_iff.mp hs
  have hstart : (a.outer b).start = min a.start b.start := by
    rw [start_outer ha.ordered hb.ordered, Cut.outerStart_eq_min hsides.1]
  have hstop : (a.outer b).stop = max a.stop b.stop := by
    rw [stop_outer ha.ordered hb.ordered, Cut.outerStop_eq_max hsides.2]
  refine ⟨⟨ho, ?_⟩, hs.outer, fun v hv hab => ?_⟩
  · rw [isEmpty_eq_false_iff ho, hstart, hstop]
    exact (min_le_left _ _).trans_lt (ha.start_lt_stop.trans_le (le_max_left _ _))
  · rw [contains_iff ha.ordered hv, contains_iff hb.ordered hv] at hab
    rw [contains_iff ho hv, hstart, hstop, min_le_iff, lt_max_iff]
    rcases hab with ⟨hl, hu⟩ | ⟨hl, hu⟩
    · exact ⟨.inl hl, .inl hu⟩
    · exact ⟨.inr hl, .inr hu⟩

end IsProper

end Interval

/-! ### Merging in order -/

theorem mem_unless_isEmpty {i j : Interval} :
    j ∈ (if i.isEmpty then none else some i) ↔ i = j ∧ i.isEmpty = false := by
  cases h : i.isEmpty <;> simp

/-- What holds of all intervals and of what two of them merge into holds of the result. -/
theorem forall_coalesce {P : Interval → Prop}
    (hunion : ∀ a b c, P a → P b → a.union b = some c → c.isEmpty = false → P c)
    {current : Option Interval} {rest : List Interval} (hc : ∀ i ∈ current, P i)
    (hr : ∀ i ∈ rest, P i) : ∀ i ∈ coalesce current rest, P i := by
  fun_induction coalesce current rest with
  | case1 current =>
    intro i hi
    exact hc i (by simpa using hi)
  | case2 next rest ih =>
    obtain ⟨hn, hr⟩ := List.forall_mem_cons.mp hr
    exact ih (by simpa using hn) hr
  | case3 current next rest hu ih =>
    obtain ⟨hn, hr⟩ := List.forall_mem_cons.mp hr
    exact List.forall_mem_cons.mpr ⟨hc current rfl, ih (by simpa using hn) hr⟩
  | case4 current next rest merged hu ih =>
    obtain ⟨hn, hr⟩ := List.forall_mem_cons.mp hr
    refine ih (fun i hi => ?_) hr
    -- A merge that holds nothing is gone.
    obtain ⟨rfl, he⟩ := mem_unless_isEmpty.mp hi
    exact hunion current next merged (hc current rfl) hn hu he

theorem mem_sorted_iff {intervals : List Interval} {i : Interval} :
    i ∈ stableSort Interval.compare (intervals.filter (!·.isEmpty)) ↔
      i ∈ intervals ∧ i.isEmpty = false := by
  rw [(stableSort_perm _ _).mem_iff, List.mem_filter, Bool.not_eq_true']

/-- Intervals that ascend in a key which merging takes over from one of them, and that end before
the key of the next one where they do not merge, become intervals of which each ends before the keys
of those after it. -/
theorem pairwise_coalesce (P : Interval → Prop) (key : Interval → Cut)
    (endsBefore : Interval → Cut → Prop)
    (hmono : ∀ a s t, endsBefore a s → s ≤ t → endsBefore a t)
    (hunion : ∀ a b c, P a → P b → a.union b = some c → c.isEmpty = false →
      P c ∧ (key c = key a ∨ key c = key b))
    (hnone : ∀ a b, P a → P b → key a ≤ key b → a.union b = none → endsBefore a (key b))
    {current : Option Interval} {rest : List Interval} (hc : ∀ i ∈ current, P i)
    (hr : ∀ i ∈ rest, P i) (hle : ∀ a ∈ current, ∀ b ∈ rest, key a ≤ key b)
    (hrest : rest.Pairwise (key · ≤ key ·)) :
    (coalesce current rest).Pairwise (endsBefore · <| key ·) := by
  fun_induction coalesce current rest with
  | case1 current => cases current <;> simp
  | case2 next rest ih =>
    obtain ⟨hn, hr⟩ := List.forall_mem_cons.mp hr
    obtain ⟨hnext, hrest⟩ := List.pairwise_cons.mp hrest
    exact ih (by simpa using hn) hr (by simpa using hnext) hrest
  | case3 current next rest hu ih =>
    obtain ⟨hn, hr⟩ := List.forall_mem_cons.mp hr
    obtain ⟨hnext, hrest⟩ := List.pairwise_cons.mp hrest
    have hcn := hle current rfl next (.head rest)
    have hends := hnone current next (hc current rfl) hn hcn hu
    -- What comes after `current` has no lesser key than `next`, even after merges.
    have habove : ∀ i ∈ coalesce (some next) rest, P i ∧ key next ≤ key i := by
      refine forall_coalesce (fun a b c ha hb h he => ?_) (by simpa using hn)
        fun i hi => ⟨hr i hi, hnext i hi⟩
      obtain ⟨hc, hkey⟩ := hunion a b c ha.1 hb.1 h he
      refine ⟨hc, ?_⟩
      rcases hkey with hkey | hkey
      · exact hkey ▸ ha.2
      · exact hkey ▸ hb.2
    exact List.pairwise_cons.mpr ⟨fun i hi => hmono current _ _ hends (habove i hi).2,
      ih (by simpa using hn) hr (by simpa using hnext) hrest⟩
  | case4 current next rest merged hu ih =>
    obtain ⟨hn, hr⟩ := List.forall_mem_cons.mp hr
    obtain ⟨hnext, hrest⟩ := List.pairwise_cons.mp hrest
    have hcur := hc current rfl
    refine ih (fun i hi => ?_) hr (fun i hi b hb => ?_) hrest
    · obtain ⟨rfl, he⟩ := mem_unless_isEmpty.mp hi
      exact (hunion current next merged hcur hn hu he).1
    · obtain ⟨rfl, he⟩ := mem_unless_isEmpty.mp hi
      rcases (hunion current next merged hcur hn hu he).2 with hkey | hkey
      · exact hkey ▸ hle current rfl b (.tail next hb)
      · exact hkey ▸ hnext b hb

/-- Merging loses a version nowhere if no merge does, and none is empty. -/
theorem exists_contains_coalesce (P : Interval → Prop) {v : Version}
    (hunion : ∀ a b c, P a → P b → a.union b = some c → c.isEmpty = false ∧ P c ∧
      (a.contains v = true ∨ b.contains v = true → c.contains v = true))
    {current : Option Interval} {rest : List Interval} (hc : ∀ i ∈ current, P i)
    (hr : ∀ i ∈ rest, P i)
    (h : (∃ i ∈ current, i.contains v = true) ∨ ∃ i ∈ rest, i.contains v = true) :
    ∃ i ∈ coalesce current rest, i.contains v = true := by
  fun_induction coalesce current rest with
  | case1 current => simpa using h
  | case2 next rest ih =>
    obtain ⟨hn, hr⟩ := List.forall_mem_cons.mp hr
    exact ih (by simpa using hn) hr (by simpa using h)
  | case3 current next rest hu ih =>
    obtain ⟨hn, hr⟩ := List.forall_mem_cons.mp hr
    rcases h with ⟨i, hi, hiv⟩ | h
    · obtain rfl : current = i := by simpa using hi
      exact ⟨current, .head _, hiv⟩
    · obtain ⟨i, hi, hiv⟩ := ih (by simpa using hn) hr (by simpa using h)
      exact ⟨i, .tail current hi, hiv⟩
  | case4 current next rest merged hu ih =>
    obtain ⟨hn, hr⟩ := List.forall_mem_cons.mp hr
    obtain ⟨he, hm, hexact⟩ := hunion current next merged (hc current rfl) hn hu
    rw [he] at ih ⊢
    refine ih (by simpa using hm) hr ?_
    rcases h with ⟨i, hi, hiv⟩ | ⟨i, hi, hiv⟩
    · obtain rfl : current = i := by simpa using hi
      exact .inl ⟨merged, rfl, hexact (.inl hiv)⟩
    · rcases List.mem_cons.mp hi with rfl | hi
      · exact .inl ⟨merged, rfl, hexact (.inr hiv)⟩
      · exact .inr ⟨i, hi, hiv⟩

/-! ### Ranges of any intervals -/

namespace Range

section Intervals

variable {intervals : List Interval} {r : Range} {v : Version}

theorem contains_iff : r.contains v = true ↔ ∃ i ∈ r.intervals, i.contains v = true :=
  List.any_eq_true

/-- What holds of the intervals that are not empty, and of what two of them merge into, holds of the
intervals of the range. -/
theorem forall_ofIntervals {P : Interval → Prop}
    (hunion : ∀ a b c, P a → P b → a.union b = some c → c.isEmpty = false → P c)
    (h : ∀ i ∈ intervals, i.isEmpty = false → P i) :
    ∀ i ∈ (ofIntervals intervals).intervals, P i := by
  refine forall_coalesce hunion (by simp) fun i hi => ?_
  obtain ⟨hi, he⟩ := mem_sorted_iff.mp hi
  exact h i hi he

theorem ofIntervals_singleton {i : Interval} (h : i.isEmpty = false) : ofIntervals [i] = ⟨[i]⟩ := by
  simp [ofIntervals, h, stableSort, insertSorted, coalesce]

theorem intervals_ofInterval (i : Interval) :
    (ofInterval i).intervals = if i.isEmpty then [] else [i] := by
  cases h : i.isEmpty with
  | true => simp [ofInterval, ofIntervals, h, stableSort, coalesce]
  | false =>
    rw [ofInterval, ofIntervals_singleton h]
    rfl

theorem isEmpty_ofInterval (i : Interval) : (ofInterval i).isEmpty = i.isEmpty := by
  rw [isEmpty, intervals_ofInterval]
  cases i.isEmpty <;> rfl

theorem contains_ofInterval (i : Interval) (v : Version) :
    (ofInterval i).contains v = i.contains v := by
  rw [contains, intervals_ofInterval]
  cases h : i.isEmpty with
  | true => simp [Interval.contains_eq_false_of_isEmpty h]
  | false => exact Bool.or_false _

theorem isProper_ofIntervals (h : ∀ i ∈ intervals, i.IsOrdered) :
    ∀ i ∈ (ofIntervals intervals).intervals, i.IsProper :=
  forall_ofIntervals (fun _ _ _ ha hb => ha.of_union hb) fun i hi he => ⟨h i hi, he⟩

/-- Sorting puts intervals in the order of their lower versions. -/
theorem pairwise_sorted (h : ∀ i ∈ intervals, i.IsOrdered) :
    (stableSort Interval.compare (intervals.filter (!·.isEmpty))).Pairwise
      (·.floor ≤ ·.floor) := by
  have ho : ∀ i ∈ intervals.filter (!·.isEmpty), i.IsOrdered :=
    fun i hi => h i (List.mem_of_mem_filter hi)
  apply stableSort_pairwise
  · exact fun a b c => le_trans
  · exact fun a ha b hb => Interval.floor_le_of_isLT_compare (ho a ha) (ho b hb)
  · exact fun a ha b hb => Interval.floor_le_of_not_isLT_compare (ho b hb) (ho a ha)

theorem pairwise_ofIntervals (h : ∀ i ∈ intervals, i.IsOrdered) :
    (ofIntervals intervals).intervals.Pairwise (·.stop ≤ ·.floor) := by
  refine pairwise_coalesce Interval.IsProper Interval.floor (·.stop ≤ ·) (fun a s t => le_trans)
    (fun a b c ha hb hu hc => ?_) (fun a b ha hb => ?_) (by simp) (fun i hi => ?_) (by simp)
    (pairwise_sorted h)
  · exact ⟨ha.of_union hb hu hc, ha.floor_of_union hb hu⟩
  · exact ha.stop_le_floor_of_union_eq_none hb
  · obtain ⟨hi, he⟩ := mem_sorted_iff.mp hi
    exact ⟨h i hi, he⟩

/-- The range of some intervals invents nothing. -/
theorem exists_contains_of_ofIntervals (h : ∀ i ∈ intervals, i.IsOrdered) (hv : v.IsOrdered)
    (hr : (ofIntervals intervals).contains v = true) : ∃ i ∈ intervals, i.contains v = true := by
  obtain ⟨i, hi, hiv⟩ := contains_iff.mp hr
  have hall : ∀ i ∈ (ofIntervals intervals).intervals,
      i.IsProper ∧ (i.contains v = true → ∃ j ∈ intervals, j.contains v = true) := by
    apply forall_ofIntervals
    · intro a b c ha hb hu hc
      refine ⟨ha.1.of_union hb.1 hu hc, fun hcv => ?_⟩
      exact (ha.1.contains_of_union hb.1 hv hu hcv).elim ha.2 hb.2
    · intro i hi he
      exact ⟨⟨h i hi, he⟩, fun hiv => ⟨i, hi, hiv⟩⟩
  exact (hall i hi).2 hiv

/-- The range of some intervals loses a version nowhere if no merge of them does, and none is
empty. -/
theorem contains_ofIntervals_of_union (P : Interval → Prop)
    (hunion : ∀ a b c, P a → P b → a.union b = some c → c.isEmpty = false ∧ P c ∧
      (a.contains v = true ∨ b.contains v = true → c.contains v = true))
    (h : ∀ i ∈ intervals, i.isEmpty = false → P i)
    (hi : ∃ i ∈ intervals, i.contains v = true) : (ofIntervals intervals).contains v = true := by
  obtain ⟨i, hi, hiv⟩ := hi
  have he := Interval.isEmpty_eq_false_of_contains hiv
  refine contains_iff.mpr (exists_contains_coalesce P hunion (by simp) (fun j hj => ?_)
    (.inr ⟨i, mem_sorted_iff.mpr ⟨hi, he⟩, hiv⟩))
  obtain ⟨hj, hje⟩ := mem_sorted_iff.mp hj
  exact h j hj hje

/-- The range of intervals with versions on the same sides loses nothing. -/
theorem contains_ofIntervals_of_sameSides (h : ∀ i ∈ intervals, i.IsOrdered) (hv : v.IsOrdered)
    (hs : ∀ i ∈ intervals, ∀ j ∈ intervals, i.isEmpty = false → j.isEmpty = false → i.SameSides j)
    {i : Interval} (hi : i ∈ intervals) (hiv : i.contains v = true) :
    (ofIntervals intervals).contains v = true := by
  have he := Interval.isEmpty_eq_false_of_contains hiv
  refine contains_ofIntervals_of_union (fun j => j.IsProper ∧ j.SameSides i)
    (fun a b c ha hb hu => ?_) (fun j hj hje => ?_) ⟨i, hi, hiv⟩
  · obtain ⟨hc, hcs, hexact⟩ := ha.1.union_of_sameSides hb.1 (ha.2.trans hb.2.symm) hu
    exact ⟨hc.nonempty, ⟨hc, hcs.trans ha.2⟩, hexact v hv⟩
  · exact ⟨⟨h j hj, hje⟩, hs j hj i hi hje he⟩

end Intervals

/-! ### The form of a range -/

/-- The intervals of a range hold something and ascend, and each ends before those after it begin:
so only the first may lack a lower version and only the last an upper one, and no two of them hold
the same ordered version. -/
structure IsNormal (r : Range) : Prop where
  nonempty : ∀ i ∈ r.intervals, i.isEmpty = false
  ascending : r.intervals.Pairwise fun a b => a.compare b = .lt
  disjoint : r.intervals.Pairwise Interval.EndsBefore
  lower : ∀ i ∈ r.intervals.tail, i.lower.version.isSome = true
  upper : ∀ i ∈ r.intervals.dropLast, i.upper.version.isSome = true
  apart : ∀ v : Version, v.IsOrdered →
    r.intervals.Pairwise fun a b => ¬(a.contains v = true ∧ b.contains v = true)

theorem IsNormal.of_pairwise {r : Range} (hp : ∀ i ∈ r.intervals, i.IsProper)
    (h : r.intervals.Pairwise (·.stop ≤ ·.floor)) : r.IsNormal := by
  have hends : r.intervals.Pairwise Interval.EndsBefore := by
    refine h.imp_of_mem fun {a b} ha hb hab => ?_
    rw [Interval.endsBefore_iff (hp a ha).ordered (hp b hb).ordered]
    exact hab.trans Interval.floor_le_start
  refine ⟨?nonempty, ?ascending, hends, ?lower, ?upper, ?apart⟩
  case nonempty =>
    intro i hi
    exact (hp i hi).nonempty
  case ascending =>
    refine h.imp_of_mem fun {a b} ha hb hab => ?_
    have hstart : a.floor ≤ a.start := Interval.floor_le_start
    have hstop : a.start < a.stop := (hp a ha).start_lt_stop
    exact Interval.compare_eq_lt_of_floor_lt (hp a ha).ordered (hp b hb).ordered (by order)
  case lower =>
    intro i hi
    cases hl : r.intervals with
    | nil => simp [hl] at hi
    | cons first rest =>
      rw [hl] at hends hi
      obtain ⟨_, _, min, hmin, _⟩ := List.rel_of_pairwise_cons hends hi
      exact Option.isSome_of_mem hmin
  case upper =>
    intro i hi
    have hne : r.intervals ≠ [] := List.ne_nil_of_mem (List.dropLast_subset _ hi)
    rw [← List.dropLast_append_getLast hne, List.pairwise_append] at hends
    obtain ⟨max, hmax, _⟩ := hends.2.2 i hi _ (.head [])
    exact Option.isSome_of_mem hmax
  case apart =>
    intro v hv
    refine h.imp_of_mem fun {a b} ha hb hab hc => ?_
    rw [Interval.contains_iff (hp a ha).ordered hv,
      Interval.contains_iff (hp b hb).ordered hv] at hc
    have hstart : b.floor ≤ b.start := Interval.floor_le_start
    obtain ⟨⟨_, ha⟩, hb, _⟩ := hc
    order

variable {intervals : List (Option Interval)}

theorem isOrdered_of_mem_filterMap (h : ∀ o ∈ intervals, ∀ i ∈ o, i.IsOrdered) :
    ∀ i ∈ intervals.filterMap id, i.IsOrdered := by
  intro i hi
  obtain ⟨o, ho, hi⟩ := List.mem_filterMap.mp hi
  exact h o ho i hi

/-- Intervals of ordered bounds, some of which may be missing or empty, make a range in normal
form, whatever their order. -/
theorem isNormal_ofOptional (h : ∀ o ∈ intervals, ∀ i ∈ o, i.IsOrdered) :
    (ofOptional intervals).IsNormal :=
  .of_pairwise (isProper_ofIntervals (isOrdered_of_mem_filterMap h))
    (pairwise_ofIntervals (isOrdered_of_mem_filterMap h))

/-- The rays below and above 1 merge into nothing, and merging starts anew with what follows. -/
theorem isNormal_ofOptional_rays :
    let one := Version.ofComponents { major := 1 }
    let rc := Version.ofComponents { major := 2, prerelease := some "rc.1" }
    let two := Version.ofComponents { major := 2 }
    let intervals := [some ⟨⟨rc, true⟩, ⟨two, false⟩⟩, none, some (.above one true), some .empty,
      some (.below one false), some (.exact two)]
    (∀ o ∈ intervals, ∀ i ∈ o, i.IsOrdered) ∧ (ofOptional intervals).IsNormal :=
  ⟨by decide +kernel, isNormal_ofOptional (by decide +kernel)⟩

/-- A version that is not ordered may lie in two intervals of a range: `1.0.0-1a` lies below
`1.0.0-2`, as a word does that compares with a number, and above `1.0.0-10`. -/
theorem exists_contains_two_intervals :
    let v (identifier : String) : Version :=
      .ofComponents { major := 1, minor := some 0, patch := some 0, prerelease := some identifier }
    let intervals : List (Option Interval) :=
      [some ⟨⟨v "0", true⟩, ⟨v "2", true⟩⟩, some ⟨⟨v "10", true⟩, ⟨v "20", true⟩⟩]
    (∀ o ∈ intervals, ∀ i ∈ o, i.IsOrdered) ∧
      ¬(ofOptional intervals).intervals.Pairwise
        fun a b => ¬(a.contains (v "1a") = true ∧ b.contains (v "1a") = true) := by
  decide +kernel

/-- The range of some intervals invents no ordered version, and it loses none if the intervals that
are not empty have versions on the same sides. -/
theorem contains_ofOptional_exact (h : ∀ o ∈ intervals, ∀ i ∈ o, i.IsOrdered) {v : Version}
    (hv : v.IsOrdered) :
    ((ofOptional intervals).contains v = true →
      ∃ i, some i ∈ intervals ∧ i.contains v = true) ∧
    ((∀ o ∈ intervals, ∀ a ∈ o, ∀ o' ∈ intervals, ∀ b ∈ o', a.isEmpty = false →
        b.isEmpty = false → a.SameSides b) →
      (∃ i, some i ∈ intervals ∧ i.contains v = true) →
        (ofOptional intervals).contains v = true) := by
  have hmem : ∀ i, i ∈ intervals.filterMap id ↔ some i ∈ intervals := by simp
  have ho := isOrdered_of_mem_filterMap h
  constructor
  · intro hr
    obtain ⟨i, hi, hiv⟩ := exists_contains_of_ofIntervals ho hv hr
    exact ⟨i, (hmem i).mp hi, hiv⟩
  · rintro hs ⟨i, hi, hiv⟩
    refine contains_ofIntervals_of_sameSides ho hv (fun a ha b hb => ?_) ((hmem i).mpr hi) hiv
    exact hs (some a) ((hmem a).mp ha) a rfl (some b) ((hmem b).mp hb) b rfl

/-- `[1,2)` and `[2,3]` merge and still hold 2. -/
theorem contains_ofOptional_exact_adjacent :
    let v (major : Int) : Version := .ofComponents { major }
    let intervals := [some ⟨⟨v 2, true⟩, ⟨v 3, true⟩⟩, none, some .empty, some (.upTo (v 1) (v 2))]
    (∀ o ∈ intervals, ∀ i ∈ o, i.IsOrdered) ∧ (v 2).IsOrdered ∧
      (ofOptional intervals).contains (v 2) = true := by
  intro v intervals
  have h : ∀ o ∈ intervals, ∀ i ∈ o, i.IsOrdered := by decide +kernel
  have hv : (v 2).IsOrdered := by decide +kernel
  refine ⟨h, hv, (contains_ofOptional_exact h hv).2 (by decide +kernel) ?_⟩
  exact ⟨⟨⟨v 2, true⟩, ⟨v 3, true⟩⟩, .head _, by decide +kernel⟩

end Range

end Versioning
