import Versioning.Proofs.Range.Separated

/-! Unions of any number of ranges, taken one after the other.  They invent nothing.  They lose
nothing if intervals that meet have versions on the same sides: what has been merged so far consists
of such intervals, so that each further merge is again of intervals with versions on the same
sides. -/

namespace Versioning

namespace Interval

/-- The intervals do not meet, or they have versions on the same sides. -/
def Compatible (a b : Interval) : Prop := a.Apart b ∨ a.SameSides b

instance (a b : Interval) : Decidable (a.Compatible b) := inferInstanceAs (Decidable (_ ∨ _))

/-- The interval holds something, and each cut from its start to its stop is one of an interval of
the collection with versions on the same sides. -/
structure IsCovered (collection : Interval → Prop) (c : Interval) : Prop where
  proper : c.IsProper
  cover : ∀ x, c.start ≤ x → x ≤ c.stop →
    ∃ m, collection m ∧ m.IsProper ∧ m.SameSides c ∧ m.start ≤ x ∧ x ≤ m.stop

variable {collection : Interval → Prop} {a b c m : Interval}

theorem IsProper.isCovered (h : m.IsProper) (hm : collection m) : m.IsCovered collection :=
  ⟨h, fun _ hl hu => ⟨m, hm, h, ⟨rfl, rfl⟩, hl, hu⟩⟩

namespace IsCovered

/-- Where two covered intervals meet, so do intervals of the collection. -/
theorem sameSides (ha : a.IsCovered collection) (hb : b.IsCovered collection)
    (hcompat : ∀ m n, collection m → collection n → m.Compatible n) (hab : a.start ≤ b.stop)
    (hba : b.start ≤ a.stop) : a.SameSides b := by
  have hsa := ha.proper.start_lt_stop
  have hsb := hb.proper.start_lt_stop
  obtain ⟨m, hm, hmp, hma, hml, hmu⟩ :=
    ha.cover (max a.start b.start) (le_max_left _ _) (max_le hsa.le hba)
  obtain ⟨n, hn, hnp, hnb, hnl, hnu⟩ :=
    hb.cover (max a.start b.start) (le_max_right _ _) (max_le hab hsb.le)
  rcases hcompat m n hm hn with hapart | hsides
  · rcases (apart_iff hmp.ordered hnp.ordered).mp hapart hmp.nonempty hnp.nonempty with h | h
    · exact absurd (hnl.trans hmu) h.not_ge
    · exact absurd (hml.trans hnu) h.not_ge
  · exact (hma.symm.trans hsides).trans hnb

theorem of_union (ha : a.IsCovered collection) (hb : b.IsCovered collection)
    (hcompat : ∀ m n, collection m → collection n → m.Compatible n) (h : a.union b = some c) :
    c.IsCovered collection ∧ ∀ v : Version, v.IsOrdered →
      a.contains v = true ∨ b.contains v = true → c.contains v = true := by
  obtain ⟨⟨hab, hba⟩, hc⟩ := (union_eq_some_iff ha.proper hb.proper).mp h
  have hs := ha.sameSides hb hcompat hab hba
  obtain ⟨hcp, hcs, hexact⟩ := ha.proper.union_of_sameSides hb.proper hs h
  refine ⟨⟨hcp, fun x hl hu => ?_⟩, hexact⟩
  rw [← hc, start_outer ha.proper.ordered hb.proper.ordered,
    Cut.outerStart_eq_min (sameSides_iff.mp hs).1, min_le_iff] at hl
  rw [← hc, stop_outer ha.proper.ordered hb.proper.ordered,
    Cut.outerStop_eq_max (sameSides_iff.mp hs).2, le_max_iff] at hu
  -- The two meet, so that a cut within their merger is one of either.
  by_cases hx : a.start ≤ x ∧ x ≤ a.stop
  · obtain ⟨m, hm, hmp, hma, hmx⟩ := ha.cover x hx.1 hx.2
    exact ⟨m, hm, hmp, hma.trans hcs.symm, hmx⟩
  · have hx' : b.start ≤ x ∧ x ≤ b.stop := by
      rw [not_and_or, not_le, not_le] at hx
      rcases hx with hx | hx
      · exact ⟨hl.resolve_left hx.not_ge, by order⟩
      · exact ⟨by order, hu.resolve_left hx.not_ge⟩
    obtain ⟨m, hm, hmp, hmb, hmx⟩ := hb.cover x hx'.1 hx'.2
    exact ⟨m, hm, hmp, (hmb.trans hs.symm).trans hcs.symm, hmx⟩

end IsCovered

end Interval

namespace Range

open Versioning.Interval

/-- The range holds only ordered versions that some of the others hold, and all of them if intervals
of the others that meet have versions on the same sides. -/
def Unites (r : Range) (rs : List Range) : Prop :=
  ∀ v : Version, v.IsOrdered →
    (r.contains v = true → ∃ s ∈ rs, s.contains v = true) ∧
    ((∀ s ∈ rs, ∀ a ∈ s.intervals, ∀ t ∈ rs, ∀ b ∈ t.intervals, a.Compatible b) →
      (∃ s ∈ rs, s.contains v = true) → r.contains v = true)

/-- The range of several alternatives: that of the only one, or else the union of all. -/
def ofAlternatives : List Range → Range
  | [r] => r
  | rs => rs.foldl union empty

variable {collection : Interval → Prop} {intervals : List Interval} {r : Range} {rs : List Range}
  {v : Version}

theorem unites_singleton : r.Unites [r] := by
  intro v _
  simp

section Covered

variable (hcompat : ∀ m n, collection m → collection n → m.Compatible n)

include hcompat

theorem isCovered_ofIntervals (h : ∀ i ∈ intervals, i.isEmpty = false → i.IsCovered collection) :
    ∀ i ∈ (ofIntervals intervals).intervals, i.IsCovered collection :=
  forall_ofIntervals (fun _ _ _ ha hb hu _ => (ha.of_union hb hcompat hu).1) h

theorem contains_ofIntervals_of_isCovered (hv : v.IsOrdered)
    (h : ∀ i ∈ intervals, i.isEmpty = false → i.IsCovered collection)
    (hi : ∃ i ∈ intervals, i.contains v = true) : (ofIntervals intervals).contains v = true := by
  refine contains_ofIntervals_of_union (IsCovered collection) (fun a b c ha hb hu => ?_) h hi
  obtain ⟨hc, hexact⟩ := ha.of_union hb hcompat hu
  exact ⟨hc.proper.nonempty, hc, hexact v hv⟩

theorem contains_foldl_union_of_isCovered (hv : v.IsOrdered)
    (hr : ∀ i ∈ r.intervals, i.isEmpty = false → i.IsCovered collection)
    (hrs : ∀ s ∈ rs, ∀ i ∈ s.intervals, i.isEmpty = false → i.IsCovered collection)
    (h : r.contains v = true ∨ ∃ s ∈ rs, s.contains v = true) :
    (rs.foldl union r).contains v = true := by
  induction rs generalizing r with
  | nil => simpa using h
  | cons s rs ih =>
    obtain ⟨hs, hrs⟩ := List.forall_mem_cons.mp hrs
    have hboth : ∀ i ∈ r.intervals ++ s.intervals, i.isEmpty = false → i.IsCovered collection :=
      List.forall_mem_append.mpr ⟨hr, hs⟩
    refine ih (fun i hi _ => isCovered_ofIntervals hcompat hboth i hi) hrs ?_
    have hunion (hi : ∃ i ∈ r.intervals ++ s.intervals, i.contains v = true) :
        (r.union s).contains v = true := contains_ofIntervals_of_isCovered hcompat hv hboth hi
    rcases h with h | ⟨t, ht, htv⟩
    · obtain ⟨i, hi, hiv⟩ := contains_iff.mp h
      exact .inl (hunion ⟨i, List.mem_append_left _ hi, hiv⟩)
    · rcases List.mem_cons.mp ht with rfl | ht
      · obtain ⟨i, hi, hiv⟩ := contains_iff.mp htv
        exact .inl (hunion ⟨i, List.mem_append_right _ hi, hiv⟩)
      · exact .inr ⟨t, ht, htv⟩

end Covered

theorem IsOrdered.union {s : Range} (hr : r.IsOrdered) (hs : s.IsOrdered) :
    (r.union s).IsOrdered :=
  isOrdered_ofIntervals (List.forall_mem_append.mpr ⟨hr, hs⟩)

theorem exists_contains_of_foldl_union (hv : v.IsOrdered) (hr : r.IsOrdered)
    (hrs : ∀ s ∈ rs, s.IsOrdered) (h : (rs.foldl union r).contains v = true) :
    r.contains v = true ∨ ∃ s ∈ rs, s.contains v = true := by
  induction rs generalizing r with
  | nil => exact .inl h
  | cons s rs ih =>
    obtain ⟨hs, hrs⟩ := List.forall_mem_cons.mp hrs
    rcases ih (hr.union hs) hrs h with h | ⟨t, ht, htv⟩
    · have ho : ∀ i ∈ r.intervals ++ s.intervals, i.IsOrdered :=
        List.forall_mem_append.mpr ⟨hr, hs⟩
      obtain ⟨i, hi, hiv⟩ := exists_contains_of_ofIntervals ho hv h
      rcases List.mem_append.mp hi with hi | hi
      · exact .inl (contains_iff.mpr ⟨i, hi, hiv⟩)
      · exact .inr ⟨s, .head rs, contains_iff.mpr ⟨i, hi, hiv⟩⟩
    · exact .inr ⟨t, .tail s ht, htv⟩

theorem unites_foldl_union (hrs : ∀ r ∈ rs, r.IsOrdered) : (rs.foldl union empty).Unites rs := by
  intro v hv
  constructor
  · intro h
    refine (exists_contains_of_foldl_union hv ?_ hrs h).resolve_left ?_
    · exact fun i hi => absurd hi List.not_mem_nil
    · exact Bool.false_ne_true
  · intro hcompat h
    have hcompat' (m n : Interval) (hm : ∃ r ∈ rs, m ∈ r.intervals)
        (hn : ∃ r ∈ rs, n ∈ r.intervals) : m.Compatible n := by
      obtain ⟨r, hr, hm⟩ := hm
      obtain ⟨s, hs, hn⟩ := hn
      exact hcompat r hr m hm s hs n hn
    refine contains_foldl_union_of_isCovered hcompat' hv ?_ ?_ (.inr h)
    · exact fun i hi => absurd hi List.not_mem_nil
    · exact fun r hr m hm he => IsProper.isCovered ⟨hrs r hr m hm, he⟩ ⟨r, hr, hm⟩

theorem unites_ofAlternatives (hrs : ∀ r ∈ rs, r.IsOrdered) : (ofAlternatives rs).Unites rs := by
  unfold ofAlternatives
  split
  · exact unites_singleton
  · exact unites_foldl_union hrs

end Range

end Versioning
