import Mathlib.Order.MinMax
import Versioning.Interval.Bound
import Versioning.Proofs.Version.Place

/-! Intervals as pairs of cuts.  A cut lies just before or just after a place, or beyond all of
them, so that inclusive and exclusive bounds, and bounds without a version, become points of one
linear order.  An interval holds what lies between its two cuts. -/

namespace Versioning

/-- A point between places: just before or just after one of them, or beyond them all. -/
def Cut : Type := WithBot (WithTop (Place ×ₗ Bool))

namespace Cut

instance : LinearOrder Cut := inferInstanceAs (LinearOrder (WithBot (WithTop (Place ×ₗ Bool))))

instance : BoundedOrder Cut := inferInstanceAs (BoundedOrder (WithBot (WithTop (Place ×ₗ Bool))))

instance : Nontrivial Cut := inferInstanceAs (Nontrivial (WithBot (WithTop (Place ×ₗ Bool))))

/-- The cut just before the version or just after it. -/
def beside (v : Version) (after : Bool) : Cut :=
  WithBot.some (WithTop.some (toLex (v.place, after)))

abbrev before (v : Version) : Cut := beside v false

variable {u v : Version} {f g : Bool} {s t : Cut}

theorem beside_lt_beside :
    beside u f < beside v g ↔ u.place < v.place ∨ u.place = v.place ∧ f < g :=
  WithBot.coe_lt_coe.trans (WithTop.coe_lt_coe.trans Prod.Lex.toLex_lt_toLex)

theorem beside_le_beside :
    beside u f ≤ beside v g ↔ u.place < v.place ∨ u.place = v.place ∧ f ≤ g :=
  WithBot.coe_le_coe.trans (WithTop.coe_le_coe.trans Prod.Lex.toLex_le_toLex)

theorem beside_eq_beside : beside u f = beside v g ↔ u.place = v.place ∧ f = g :=
  WithBot.coe_inj.trans (WithTop.coe_inj.trans (toLex_inj.trans Prod.mk_inj))

@[simp] theorem beside_ne_bot : beside v f ≠ ⊥ := WithBot.coe_ne_bot

@[simp] theorem beside_ne_top : beside v f ≠ ⊤ :=
  fun h => WithTop.coe_ne_top (WithBot.coe_injective h)

/-- Nothing lies between the two cuts of a place. -/
theorem le_before_of_lt (h : s < beside v f) : s ≤ before v := by
  rcases s with _ | _ | s
  · exact bot_le
  · exact absurd h (not_lt_of_ge le_top)
  · have h : s < toLex (v.place, f) := WithTop.coe_lt_coe.mp (WithBot.coe_lt_coe.mp h)
    have : s ≤ toLex (v.place, false) := by
      rw [Prod.Lex.lt_iff] at h
      rw [Prod.Lex.le_iff]
      exact h.imp_right fun h => ⟨h.1, (Bool.lt_iff.mp h.2).1.le⟩
    exact WithBot.coe_le_coe.mpr (WithTop.coe_le_coe.mpr this)

theorem beside_congr (h : u.place = v.place) : beside u f = beside v f :=
  beside_eq_beside.mpr ⟨h, rfl⟩

theorem beside_lt_of_place_lt (h : u.place < v.place) : beside u f < beside v g :=
  beside_lt_beside.mpr (.inl h)

theorem beside_mono : Monotone (beside u) := fun _ _ h => beside_le_beside.mpr (.inr ⟨rfl, h⟩)

theorem max_beside : max (beside u f) (beside u g) = beside u (f || g) :=
  (beside_mono.map_max).symm

theorem min_beside : min (beside u f) (beside u g) = beside u (f && g) :=
  (beside_mono.map_min).symm

/-- The lesser of two starts, of which a missing one gives way to the other. -/
def outerStart (s t : Cut) : Cut := if s = ⊥ then t else if t = ⊥ then s else min s t

/-- The greater of two stops, of which a missing one gives way to the other. -/
def outerStop (s t : Cut) : Cut := if s = ⊤ then t else if t = ⊤ then s else max s t

/-- Up from the outer of two starts is up from one of those that are there, or all if none is. -/
theorem outerStart_le_iff {x : Cut} :
    outerStart s t ≤ x ↔ s = ⊥ ∧ t = ⊥ ∨ s ≠ ⊥ ∧ s ≤ x ∨ t ≠ ⊥ ∧ t ≤ x := by
  unfold outerStart
  split
  next hs => by_cases ht : t = ⊥ <;> simp [hs, ht]
  next hs =>
    split
    next ht => simp [hs, ht]
    next ht => simp [hs, ht]

/-- Below the outer of two stops is below one of those that are there, or all if none is. -/
theorem lt_outerStop_iff {x : Cut} (hx : x ≠ ⊤) :
    x < outerStop s t ↔ s = ⊤ ∧ t = ⊤ ∨ s ≠ ⊤ ∧ x < s ∨ t ≠ ⊤ ∧ x < t := by
  unfold outerStop
  split
  next hs => by_cases ht : t = ⊤ <;> simp [hs, ht, hx.lt_top]
  next hs =>
    split
    next ht => simp [hs, ht]
    next ht => simp [hs, ht]

theorem le_of_outerStart_le {x : Cut} (h : outerStart s t ≤ x) : s ≤ x ∨ t ≤ x := by
  rcases outerStart_le_iff.mp h with ⟨hs, -⟩ | ⟨-, h⟩ | ⟨-, h⟩
  · exact .inl (hs ▸ bot_le)
  · exact .inl h
  · exact .inr h

theorem lt_of_lt_outerStop {x : Cut} (h : x < outerStop s t) : x < s ∨ x < t := by
  rcases (lt_outerStop_iff h.ne_top).mp h with ⟨hs, -⟩ | ⟨-, h⟩ | ⟨-, h⟩
  · exact .inl (hs ▸ h.ne_top.lt_top)
  · exact .inl h
  · exact .inr h

theorem outerStart_eq_min (h : s = ⊥ ↔ t = ⊥) : outerStart s t = min s t := by
  unfold outerStart
  split
  next hs => simp [hs, h.mp hs]
  next hs => rw [if_neg fun ht => hs (h.mpr ht)]

theorem outerStop_eq_max (h : s = ⊤ ↔ t = ⊤) : outerStop s t = max s t := by
  unfold outerStop
  split
  next hs => simp [hs, h.mp hs]
  next hs => rw [if_neg fun ht => hs (h.mpr ht)]

end Cut

/-! ### Bounds -/

namespace Bound

/-- A bound whose version, if it has one, is ordered. -/
def IsOrdered (b : Bound) : Prop := ∀ v ∈ b.version, v.IsOrdered

instance (b : Bound) : Decidable b.IsOrdered :=
  inferInstanceAs (Decidable (∀ v ∈ b.version, v.IsOrdered))

/-- The cut from which on a lower bound admits versions. -/
def start (b : Bound) : Cut := b.version.elim ⊥ (Cut.beside · !b.inclusive)

/-- The cut up to which an upper bound admits versions. -/
def stop (b : Bound) : Cut := b.version.elim ⊤ (Cut.beside · b.inclusive)

/-- The cut just before the version of a lower bound, whether it is inclusive or not. -/
def floor (b : Bound) : Cut := b.version.elim ⊥ Cut.before

variable {a b : Bound} {v : Version} {s : Cut}

theorem start_ne_top : b.start ≠ ⊤ := by
  cases h : b.version <;> simp [start, h]

theorem stop_ne_bot : b.stop ≠ ⊥ := by
  cases h : b.version <;> simp [stop, h]

theorem start_eq_bot_iff : b.start = ⊥ ↔ b.version = none := by
  cases h : b.version <;> simp [start, h]

theorem stop_eq_top_iff : b.stop = ⊤ ↔ b.version = none := by
  cases h : b.version <;> simp [stop, h]

theorem floor_le_start : b.floor ≤ b.start := by
  cases h : b.version with
  | none => simp [floor, h]
  | some v => simp [floor, start, h, Cut.beside_le_beside]

/-- Nothing lies between the version of a lower bound and the bound itself. -/
theorem le_floor_of_lt (h : s < b.start) : s ≤ b.floor := by
  cases hv : b.version with
  | none => simp [start, hv] at h
  | some v =>
    simp only [start, floor, hv, Option.elim_some] at h ⊢
    exact Cut.le_before_of_lt h

theorem admits_lower (hb : b.IsOrdered) (hv : v.IsOrdered) :
    b.admits .lower v = true ↔ b.start ≤ Cut.before v := by
  cases h : b.version with
  | none => simp [admits, start, h]
  | some limit =>
    simp only [admits, start, h, Side.compare, Option.elim_some, Cut.beside_le_beside]
    obtain ⟨ho, hp⟩ | ⟨ho, hp⟩ | ⟨ho, hp⟩ := Version.compare_cases hv (hb limit h)
    · simp [ho, hp.not_gt, hp.ne']
    · cases b.inclusive <;> simp [ho, hp]
    · simp [ho, hp]

theorem admits_upper (hb : b.IsOrdered) (hv : v.IsOrdered) :
    b.admits .upper v = true ↔ Cut.before v < b.stop := by
  cases h : b.version with
  | none => simp [admits, stop, h, Ne.lt_top]
  | some limit =>
    simp only [admits, stop, h, Side.compare, Option.elim_some, Cut.beside_lt_beside]
    obtain ⟨ho, hp⟩ | ⟨ho, hp⟩ | ⟨ho, hp⟩ := Version.compare_cases (hb limit h) hv
    · simp [ho, hp.not_gt, hp.ne']
    · cases b.inclusive <;> simp [ho, hp]
    · simp [ho, hp]

theorem version_tighter (side : Side) (a b : Bound) :
    (a.tighter side b).version = a.version ∨ (a.tighter side b).version = b.version := by
  unfold tighter
  repeat' split
  all_goals simp_all

theorem version_looser (side : Side) (a b : Bound) :
    (a.looser side b).version = a.version ∨ (a.looser side b).version = b.version := by
  unfold looser
  repeat' split
  all_goals simp_all

theorem IsOrdered.of_version (ha : a.IsOrdered) (hb : b.IsOrdered) {c : Bound}
    (h : c.version = a.version ∨ c.version = b.version) : c.IsOrdered := by
  unfold IsOrdered
  rcases h with h | h
  · rw [h]
    exact ha
  · rw [h]
    exact hb

theorem start_tighter (ha : a.IsOrdered) (hb : b.IsOrdered) :
    (a.tighter .lower b).start = max a.start b.start := by
  obtain ⟨_ | u, f⟩ := a <;> obtain ⟨_ | v, g⟩ := b
  · simp [tighter, start]
  · simp [tighter, start]
  · simp [tighter, start]
  obtain ⟨ho, hp⟩ | ⟨ho, hp⟩ | ⟨ho, hp⟩ := Version.compare_cases (ha u rfl) (hb v rfl)
  · simp [tighter, Side.compare, ho, start, (Cut.beside_lt_of_place_lt hp).le]
  · simp [tighter, Side.compare, ho, start, ← Cut.beside_congr hp, Cut.max_beside]
  · simp [tighter, Side.compare, ho, start, (Cut.beside_lt_of_place_lt hp).le]

theorem stop_tighter (ha : a.IsOrdered) (hb : b.IsOrdered) :
    (a.tighter .upper b).stop = min a.stop b.stop := by
  obtain ⟨_ | u, f⟩ := a <;> obtain ⟨_ | v, g⟩ := b
  · simp [tighter, stop]
  · simp [tighter, stop]
  · simp [tighter, stop]
  obtain ⟨ho, hp⟩ | ⟨ho, hp⟩ | ⟨ho, hp⟩ := Version.compare_cases (hb v rfl) (ha u rfl)
  · simp [tighter, Side.compare, ho, stop, (Cut.beside_lt_of_place_lt hp).le]
  · simp [tighter, Side.compare, ho, stop, Cut.beside_congr hp, Cut.min_beside]
  · simp [tighter, Side.compare, ho, stop, (Cut.beside_lt_of_place_lt hp).le]

theorem start_looser (ha : a.IsOrdered) (hb : b.IsOrdered) :
    (a.looser .lower b).start = Cut.outerStart a.start b.start := by
  obtain ⟨_ | u, f⟩ := a <;> obtain ⟨_ | v, g⟩ := b
  · simp [looser, start, Cut.outerStart]
  · simp [looser, start, Cut.outerStart]
  · simp [looser, start, Cut.outerStart]
  obtain ⟨ho, hp⟩ | ⟨ho, hp⟩ | ⟨ho, hp⟩ := Version.compare_cases (ha u rfl) (hb v rfl)
  · simp [looser, Side.compare, ho, start, Cut.outerStart, (Cut.beside_lt_of_place_lt hp).le]
  · simp [looser, Side.compare, ho, start, Cut.outerStart, ← Cut.beside_congr hp, Cut.min_beside]
  · simp [looser, Side.compare, ho, start, Cut.outerStart, (Cut.beside_lt_of_place_lt hp).le]

theorem stop_looser (ha : a.IsOrdered) (hb : b.IsOrdered) :
    (a.looser .upper b).stop = Cut.outerStop a.stop b.stop := by
  obtain ⟨_ | u, f⟩ := a <;> obtain ⟨_ | v, g⟩ := b
  · simp [looser, stop, Cut.outerStop]
  · simp [looser, stop, Cut.outerStop]
  · simp [looser, stop, Cut.outerStop]
  obtain ⟨ho, hp⟩ | ⟨ho, hp⟩ | ⟨ho, hp⟩ := Version.compare_cases (hb v rfl) (ha u rfl)
  · simp [looser, Side.compare, ho, stop, Cut.outerStop, (Cut.beside_lt_of_place_lt hp).le]
  · simp [looser, Side.compare, ho, stop, Cut.outerStop, Cut.beside_congr hp, Cut.max_beside]
  · simp [looser, Side.compare, ho, stop, Cut.outerStop, (Cut.beside_lt_of_place_lt hp).le]

end Bound

end Versioning
