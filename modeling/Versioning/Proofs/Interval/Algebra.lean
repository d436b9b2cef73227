import Mathlib.Tactic.Order
import Versioning.Interval.Basic
import Versioning.Proofs.Interval.Cut

/-! What intervals hold, share and merge into, in terms of their cuts.  An intersection runs from
the greater start to the lesser stop.  Two intervals merge unless one stops before the other
starts, and the merged one runs from the outer start to the outer stop. -/

namespace Versioning.Interval

structure IsOrdered (i : Interval) : Prop where
  lower : i.lower.IsOrdered
  upper : i.upper.IsOrdered

theorem isOrdered_iff {i : Interval} : i.IsOrdered ↔ i.lower.IsOrdered ∧ i.upper.IsOrdered :=
  ⟨fun h => ⟨h.lower, h.upper⟩, fun h => ⟨h.1, h.2⟩⟩

instance (i : Interval) : Decidable i.IsOrdered := decidable_of_iff' _ isOrdered_iff

/-- An interval of ordered bounds that leave a place for a version. -/
structure IsProper (i : Interval) : Prop where
  ordered : i.IsOrdered
  nonempty : i.isEmpty = false

/-- The interval is a single version or a ray, so that one constraint shows it. -/
def IsSingle (i : Interval) : Prop :=
  i.point?.isSome = true ∨ i.lower.version.isSome ≠ i.upper.version.isSome

instance (i : Interval) : Decidable i.IsSingle := inferInstanceAs (Decidable (_ ∨ _))

def start (i : Interval) : Cut := i.lower.start

def stop (i : Interval) : Cut := i.upper.stop

def floor (i : Interval) : Cut := i.lower.floor

/-- The interval ends before the other begins: both have versions there, in order, and if these are
equal, not both belong to their intervals. -/
def EndsBefore (a b : Interval) : Prop :=
  ∃ max ∈ a.upper.version, ∃ min ∈ b.lower.version,
    max < min ∨ max.same min = true ∧ (a.upper.inclusive && b.lower.inclusive) = false

variable {a b c i : Interval} {p v : Version} {s : Cut}

theorem point?_eq_some_iff : i.point? = some p ↔
    ∃ q, i = ⟨⟨some p, true⟩, ⟨some q, true⟩⟩ ∧ p.same q = true := by
  obtain ⟨⟨_ | min, f⟩, ⟨_ | max, g⟩⟩ := i
  · simp [point?]
  · simp [point?]
  · simp [point?]
  · simp only [point?]
    constructor
    · intro h
      split at h
      next hc =>
        obtain rfl := Option.some.inj h
        obtain ⟨⟨hs, rfl⟩, rfl⟩ : (min.same max = true ∧ f = true) ∧ g = true := by
          simpa using hc
        exact ⟨max, rfl, hs⟩
      next => cases h
    · rintro ⟨q, h, hs⟩
      cases h
      simp [hs]

theorem isEmpty_exact : (exact v).isEmpty = false := by
  simp [isEmpty, exact, Std.ReflCmp.compare_self]

theorem point?_exact : (exact v).point? = some v :=
  point?_eq_some_iff.mpr ⟨v, rfl, by simp [Version.same, Std.ReflCmp.compare_self]⟩

theorem isEmpty_iff (h : i.IsOrdered) : i.isEmpty = true ↔ i.stop ≤ i.start := by
  obtain ⟨⟨_ | min, f⟩, ⟨_ | max, g⟩⟩ := i
  · simp [isEmpty, start, stop, Bound.start, Bound.stop]
  · simp [isEmpty, start, stop, Bound.start, Bound.stop]
  · simp [isEmpty, start, stop, Bound.start, Bound.stop]
  simp only [isEmpty, start, stop, Bound.start, Bound.stop, Option.elim_some, Cut.beside_le_beside]
  obtain ⟨ho, hp⟩ | ⟨ho, hp⟩ | ⟨ho, hp⟩ := Version.compare_cases (h.lower min rfl) (h.upper max rfl)
  · simp [ho, hp.not_gt, hp.ne']
  · cases f <;> cases g <;> simp [ho, hp]
  · simp [ho, hp]

theorem isEmpty_eq_false_iff (h : i.IsOrdered) : i.isEmpty = false ↔ i.start < i.stop := by
  rw [← not_le, ← isEmpty_iff h, Bool.not_eq_true]

theorem IsProper.start_lt_stop (h : i.IsProper) : i.start < i.stop :=
  (isEmpty_eq_false_iff h.ordered).mp h.nonempty

theorem contains_iff (h : i.IsOrdered) (hv : v.IsOrdered) :
    i.contains v = true ↔ i.start ≤ Cut.before v ∧ Cut.before v < i.stop := by
  simp only [contains, Bool.and_eq_true, Bool.not_eq_true', isEmpty_eq_false_iff h,
    Bound.admits_lower h.lower hv, Bound.admits_upper h.upper hv]
  constructor
  · exact fun ⟨⟨_, hl⟩, hu⟩ => ⟨hl, hu⟩
  · exact fun ⟨hl, hu⟩ => ⟨⟨hl.trans_lt hu, hl⟩, hu⟩

theorem start_ne_top : i.start ≠ ⊤ := Bound.start_ne_top

theorem stop_ne_bot : i.stop ≠ ⊥ := Bound.stop_ne_bot

theorem start_eq_bot_iff : i.start = ⊥ ↔ i.lower.version = none := Bound.start_eq_bot_iff

theorem stop_eq_top_iff : i.stop = ⊤ ↔ i.upper.version = none := Bound.stop_eq_top_iff

theorem floor_le_start : i.floor ≤ i.start := Bound.floor_le_start

theorem le_floor_of_lt (h : s < i.start) : s ≤ i.floor := Bound.le_floor_of_lt h

theorem contains_eq_false_of_isEmpty (h : i.isEmpty = true) : i.contains v = false := by
  simp [contains, h]

theorem isEmpty_eq_false_of_contains (h : i.contains v = true) : i.isEmpty = false := by
  cases he : i.isEmpty with
  | true => rw [contains_eq_false_of_isEmpty he] at h; contradiction
  | false => rfl

/-! ### Intersections -/

theorem isOrdered_empty : empty.IsOrdered := by decide +kernel

theorem isEmpty_empty : empty.isEmpty = true := by decide +kernel

theorem inter_eq_empty (h : a.isEmpty = true ∨ b.isEmpty = true) : a.inter b = empty := by
  rw [inter, if_pos (by simpa using h)]

theorem isEmpty_eq_false_of_inter (h : (a.inter b).isEmpty = false) :
    a.isEmpty = false ∧ b.isEmpty = false := by
  constructor
  · refine Bool.eq_false_of_not_eq_true fun he => ?_
    rw [inter_eq_empty (.inl he), isEmpty_empty] at h
    contradiction
  · refine Bool.eq_false_of_not_eq_true fun he => ?_
    rw [inter_eq_empty (.inr he), isEmpty_empty] at h
    contradiction

theorem IsOrdered.inter (ha : a.IsOrdered) (hb : b.IsOrdered) : (a.inter b).IsOrdered := by
  unfold Interval.inter
  split
  · exact isOrdered_empty
  · exact ⟨.of_version ha.lower hb.lower (Bound.version_tighter ..),
      .of_version ha.upper hb.upper (Bound.version_tighter ..)⟩

section Inter

variable (ha : a.IsOrdered) (hb : b.IsOrdered)

include ha hb

theorem start_inter (hea : a.isEmpty = false) (heb : b.isEmpty = false) :
    (a.inter b).start = max a.start b.start := by
  rw [inter, if_neg (by simp [hea, heb])]
  exact Bound.start_tighter ha.lower hb.lower

theorem stop_inter (hea : a.isEmpty = false) (heb : b.isEmpty = false) :
    (a.inter b).stop = min a.stop b.stop := by
  rw [inter, if_neg (by simp [hea, heb])]
  exact Bound.stop_tighter ha.upper hb.upper

theorem isEmpty_inter_iff :
    (a.inter b).isEmpty = true ↔ min a.stop b.stop ≤ max a.start b.start := by
  cases hea : a.isEmpty with
  | true =>
    have hi : a.stop ≤ a.start := (isEmpty_iff ha).mp hea
    rw [inter_eq_empty (.inl hea), isEmpty_empty]
    exact iff_of_true rfl ((min_le_left _ _).trans (hi.trans (le_max_left _ _)))
  | false =>
    cases heb : b.isEmpty with
    | true =>
      have hi : b.stop ≤ b.start := (isEmpty_iff hb).mp heb
      rw [inter_eq_empty (.inr heb), isEmpty_empty]
      exact iff_of_true rfl ((min_le_right _ _).trans (hi.trans (le_max_right _ _)))
    | false =>
      rw [isEmpty_iff (ha.inter hb), start_inter ha hb hea heb, stop_inter ha hb hea heb]

theorem contains_inter_iff (hv : v.IsOrdered) :
    (a.inter b).contains v = true ↔ a.contains v = true ∧ b.contains v = true := by
  cases hea : a.isEmpty with
  | true => simp [inter_eq_empty (.inl hea), contains_eq_false_of_isEmpty, isEmpty_empty, hea]
  | false =>
    cases heb : b.isEmpty with
    | true => simp [inter_eq_empty (.inr heb), contains_eq_false_of_isEmpty, isEmpty_empty, heb]
    | false =>
      rw [contains_iff (ha.inter hb) hv, contains_iff ha hv, contains_iff hb hv,
        start_inter ha hb hea heb, stop_inter ha hb hea heb, max_le_iff, lt_min_iff]
      exact and_and_and_comm

theorem overlaps_iff : a.overlaps b = true ↔ max a.start b.start < min a.stop b.stop := by
  rw [← not_le, ← isEmpty_inter_iff ha hb]
  cases hea : a.isEmpty with
  | true => simp [overlaps, hea, inter_eq_empty, isEmpty_empty]
  | false =>
    cases heb : b.isEmpty with
    | true => simp [overlaps, heb, inter_eq_empty, isEmpty_empty]
    | false => simp [overlaps, hea, heb]

end Inter

/-! ### Unions -/

theorem touch?_eq_some_true_iff {upper lower : Bound} (hu : upper.IsOrdered)
    (hl : lower.IsOrdered) : touch? upper lower = some true ↔ upper.stop = lower.start := by
  obtain ⟨_ | max, f⟩ := upper <;> obtain ⟨_ | min, g⟩ := lower
  · simp [touch?, Bound.start, Bound.stop]
  · simp [touch?, Bound.start, Bound.stop, Cut.beside_ne_top.symm]
  · simp [touch?, Bound.start, Bound.stop]
  simp only [touch?, Bound.start, Bound.stop, Option.elim_some, Version.same, Cut.beside_eq_beside]
  obtain ⟨ho, hp⟩ | ⟨ho, hp⟩ | ⟨ho, hp⟩ := Version.compare_cases (hu max rfl) (hl min rfl)
  · simp [ho, hp.ne]
  · cases f <;> cases g <;> simp [ho, hp]
  · simp [ho, hp.ne']

/-- Where bounds of equal versions do not touch, nothing lies between their cuts. -/
theorem le_start_of_touch?_eq_some_false {upper lower : Bound} (hu : upper.IsOrdered)
    (hl : lower.IsOrdered) (h : touch? upper lower = some false) (hs : s < upper.stop) :
    s ≤ lower.start := by
  obtain ⟨_ | max, f⟩ := upper <;> obtain ⟨_ | min, g⟩ := lower
  · simp [touch?] at h
  · simp [touch?] at h
  · simp [touch?] at h
  obtain ⟨ho, hp⟩ | ⟨ho, hp⟩ | ⟨ho, hp⟩ := Version.compare_cases (hu max rfl) (hl min rfl)
  · simp [touch?, Version.same, ho] at h
  · have : Cut.before max ≤ Bound.start ⟨some min, g⟩ := by
      simp [Bound.start, Cut.beside_le_beside, hp]
    exact (Cut.le_before_of_lt hs).trans this
  · simp [touch?, Version.same, ho] at h

/-- What two intervals merge into, if they do. -/
def outer (a b : Interval) : Interval :=
  ⟨a.lower.looser .lower b.lower, a.upper.looser .upper b.upper⟩

theorem floor_outer : (a.outer b).floor = a.floor ∨ (a.outer b).floor = b.floor := by
  unfold floor Bound.floor
  rcases Bound.version_looser .lower a.lower b.lower with h | h
  · exact .inl (by rw [outer, h])
  · exact .inr (by rw [outer, h])

section Union

variable (ha : a.IsOrdered) (hb : b.IsOrdered)

include ha hb

theorem IsOrdered.outer : (a.outer b).IsOrdered :=
  ⟨.of_version ha.lower hb.lower (Bound.version_looser ..),
    .of_version ha.upper hb.upper (Bound.version_looser ..)⟩

theorem start_outer : (a.outer b).start = Cut.outerStart a.start b.start :=
  Bound.start_looser ha.lower hb.lower

theorem stop_outer : (a.outer b).stop = Cut.outerStop a.stop b.stop :=
  Bound.stop_looser ha.upper hb.upper

end Union

section Proper

variable (ha : a.IsProper) (hb : b.IsProper)

include ha hb

theorem isAdjacent_iff : a.isAdjacent b = true ↔ a.stop = b.start ∨ b.stop = a.start := by
  have hsa := ha.start_lt_stop
  have hsb := hb.start_lt_stop
  have hab := touch?_eq_some_true_iff ha.ordered.upper hb.ordered.lower
  have hba := touch?_eq_some_true_iff hb.ordered.upper ha.ordered.lower
  simp only [isAdjacent, ha.nonempty, hb.nonempty, Bool.not_false, Bool.true_and]
  change _ ↔ a.upper.stop = b.lower.start ∨ b.upper.stop = a.lower.start
  rw [← hab, ← hba]
  cases h : touch? a.upper b.lower with
  | none => cases touch? b.upper a.lower <;> simp
  | some t =>
    cases t with
    | true => simp
    | false =>
      -- The other ends cannot touch: `b` would have to lie within the version at which `a` stops.
      have hne : ¬touch? b.upper a.lower = some true := by
        intro h'
        have hle : a.start ≤ b.start :=
          le_start_of_touch?_eq_some_false ha.ordered.upper hb.ordered.lower h hsa
        have heq : b.stop = a.start := hba.mp h'
        order
      simp [hne]

/-- Intervals that hold something overlap or are adjacent unless one stops before the other
starts. -/
theorem overlaps_or_isAdjacent_iff :
    (a.overlaps b || a.isAdjacent b) = true ↔ a.start ≤ b.stop ∧ b.start ≤ a.stop := by
  have hsa := ha.start_lt_stop
  have hsb := hb.start_lt_stop
  rw [Bool.or_eq_true, overlaps_iff ha.ordered hb.ordered, isAdjacent_iff ha hb, max_lt_iff,
    lt_min_iff, lt_min_iff]
  constructor
  · rintro (⟨⟨_, h⟩, h', _⟩ | h | h)
    · exact ⟨h.le, h'.le⟩
    · exact ⟨by order, h.ge⟩
    · exact ⟨h.ge, by order⟩
  · rintro ⟨h, h'⟩
    rcases h.lt_or_eq with h | h
    · rcases h'.lt_or_eq with h' | h'
      · exact .inl ⟨⟨hsa, h⟩, h', hsb⟩
      · exact .inr (.inl h'.symm)
    · exact .inr (.inr h.symm)

theorem union_eq :
    a.union b = if a.start ≤ b.stop ∧ b.start ≤ a.stop then some (a.outer b) else none := by
  have h := overlaps_or_isAdjacent_iff ha hb
  simp only [union, ha.nonempty, hb.nonempty, Bool.false_eq_true, if_false, h]
  rfl

theorem union_eq_none_iff : a.union b = none ↔ a.stop < b.start ∨ b.stop < a.start := by
  rw [union_eq ha hb]
  split
  next h => simp [h.1, h.2]
  next h =>
    rw [not_and_or, not_le, not_le] at h
    exact iff_of_true rfl h.symm

theorem union_eq_some_iff :
    a.union b = some c ↔ (a.start ≤ b.stop ∧ b.start ≤ a.stop) ∧ a.outer b = c := by
  rw [union_eq ha hb]
  split
  next h => simp [h]
  next h => simp [h]

end Proper

/-! ### Order -/

section Order

variable (ha : a.IsOrdered) (hb : b.IsOrdered)

include ha hb

theorem compares_floor :
    (Ord.compare a.lower.version b.lower.version).Compares a.floor b.floor := by
  obtain ⟨⟨_ | u, f⟩, _⟩ := a <;> obtain ⟨⟨_ | v, g⟩, _⟩ := b
  · rfl
  · exact Ne.bot_lt Cut.beside_ne_bot
  · exact Ne.bot_lt Cut.beside_ne_bot
  change (Ord.compare u v).Compares (Cut.before u) (Cut.before v)
  obtain ⟨ho, hp⟩ | ⟨ho, hp⟩ | ⟨ho, hp⟩ := Version.compare_cases (ha.lower u rfl) (hb.lower v rfl)
  · rw [ho]
    exact Cut.beside_lt_of_place_lt hp
  · rw [ho]
    exact Cut.beside_congr hp
  · rw [ho]
    exact Cut.beside_lt_of_place_lt hp

theorem compare_eq_lt_of_floor_lt (h : a.floor < b.floor) : a.compare b = .lt := by
  rw [compare, (compares_floor ha hb).eq_lt.mpr h]
  rfl

theorem floor_le_of_isLT_compare (h : (a.compare b).isLT = true) : a.floor ≤ b.floor := by
  have hne : Ord.compare a.lower.version b.lower.version ≠ .gt := by
    intro hgt
    rw [compare, hgt] at h
    contradiction
  exact (compares_floor ha hb).ne_gt.mp hne

theorem floor_le_of_not_isLT_compare (h : ¬(a.compare b).isLT = true) : b.floor ≤ a.floor := by
  have hne : Ord.compare a.lower.version b.lower.version ≠ .lt := by
    intro hlt
    rw [compare, hlt] at h
    exact h rfl
  exact (compares_floor ha hb).ne_lt.mp hne

theorem endsBefore_iff : a.EndsBefore b ↔ a.stop ≤ b.start := by
  obtain ⟨_, ⟨_ | u, f⟩⟩ := a <;> obtain ⟨⟨_ | v, g⟩, _⟩ := b
  · simp [EndsBefore, start, stop, Bound.start, Bound.stop]
  · simp [EndsBefore, start, stop, Bound.start, Bound.stop]
  · simp [EndsBefore, start, stop, Bound.start, Bound.stop]
  have hu : u.IsOrdered := ha.upper u rfl
  have hv : v.IsOrdered := hb.lower v rfl
  simp only [EndsBefore, start, stop, Bound.start, Bound.stop, Option.elim_some, Option.mem_def,
    Option.some.injEq, exists_eq_left', Version.lt_iff_place_lt hu hv,
    Version.same_eq_true_iff hu hv, Cut.beside_le_beside]
  cases f <;> cases g <;> simp

end Order

end Versioning.Interval
