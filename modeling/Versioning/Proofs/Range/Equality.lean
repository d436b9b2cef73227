import Versioning.Proofs.Uri

/-! Equal ranges.  Their bounds agree one by one, so that they hold the same versions but for those
between two spellings of a bound; and they are equal just if the flags of the bounds without a
version are equal, too, though these play no part in what a range holds. -/

namespace Versioning

namespace Bound

variable {a b : Bound} {side : Side} {v : Version}

/-- The version does not tell the versions of the two bounds apart. -/
def IsIndifferent (v : Version) (a b : Bound) : Prop :=
  ∀ u ∈ a.version, ∀ w ∈ b.version, v.IsIndifferent u w

instance (v : Version) (a b : Bound) : Decidable (IsIndifferent v a b) :=
  inferInstanceAs (Decidable (∀ u ∈ a.version, ∀ w ∈ b.version, v.IsIndifferent u w))

/-- Both bounds have a version, or their flags are equal. -/
def SharesFlag (a b : Bound) : Prop := a.version = none → a.inclusive = b.inclusive

theorem same_iff : a.same b = true ↔ a.Agrees b ∧ a.SharesFlag b := by
  obtain ⟨_ | u, f⟩ := a <;> obtain ⟨_ | w, g⟩ := b <;> simp [same, Agrees, SharesFlag, and_comm]

theorem same_iff_key_eq : a.same b = true ↔ a.key = b.key := by
  obtain ⟨_ | u, f⟩ := a <;> obtain ⟨_ | w, g⟩ := b <;>
    simp [same, key, Version.same_iff_key_eq, and_comm]

theorem Agrees.admits_eq (h : a.Agrees b) (hv : IsIndifferent v a b) :
    a.admits side v = b.admits side v := by
  obtain ⟨_ | u, f⟩ := a <;> obtain ⟨_ | w, g⟩ := b
  · rfl
  · cases h
  · cases h
  · obtain ⟨hs, rfl⟩ := h
    have hcompare := Version.compare_congr_of_isIndifferent hs (hv u rfl w rfl)
    have hswap : Ord.compare u v = Ord.compare w v := by
      rw [Std.OrientedOrd.eq_swap, hcompare, ← Std.OrientedOrd.eq_swap]
    cases side <;> simp [admits, Side.compare, hcompare, hswap]

end Bound

namespace Interval

variable {i j : Interval} {v : Version}

/-- The version does not tell the bounds of the two intervals apart. -/
def IsIndifferent (v : Version) (i j : Interval) : Prop :=
  Bound.IsIndifferent v i.lower j.lower ∧ Bound.IsIndifferent v i.upper j.upper

instance (v : Version) (i j : Interval) : Decidable (IsIndifferent v i j) :=
  inferInstanceAs (Decidable (_ ∧ _))

theorem isIndifferent_of_isOrdered (hv : v.IsOrdered) (i j : Interval) : IsIndifferent v i j :=
  ⟨fun u _ w _ => hv.isIndifferent u w, fun u _ w _ => hv.isIndifferent u w⟩

/-- The flags of both intervals are equal where there is no version. -/
def SharesFlags (i j : Interval) : Prop := i.lower.SharesFlag j.lower ∧ i.upper.SharesFlag j.upper

theorem same_iff : i.same j = true ↔ i.Agrees j ∧ i.SharesFlags j := by
  rw [same, Bool.and_eq_true, Bound.same_iff, Bound.same_iff, Agrees, SharesFlags]
  exact and_and_and_comm

theorem same_iff_key_eq : i.same j = true ↔ i.key = j.key := by
  rw [same, Bool.and_eq_true, Bound.same_iff_key_eq, Bound.same_iff_key_eq]
  exact Prod.mk_inj.symm

theorem Agrees.contains_eq (h : i.Agrees j) (hi : i.isEmpty = false) (hj : j.isEmpty = false)
    (hv : IsIndifferent v i j) : i.contains v = j.contains v := by
  rw [contains, contains, hi, hj, h.1.admits_eq hv.1, h.2.admits_eq hv.2]

end Interval

namespace Range

variable {r s : Range} {v : Version}

theorem same_iff :
    r.same s = true ↔ List.Forall₂ (fun i j => i.same j = true) r.intervals s.intervals := by
  unfold same
  generalize r.intervals = is, s.intervals = js
  induction is generalizing js with
  | nil => cases js <;> simp [List.isEqv]
  | cons i is ih => cases js <;> simp [List.isEqv, ih]

theorem same_iff_key_eq : r.same s = true ↔ r.key = s.key := by
  rw [same_iff, key, key, ← List.forall₂_eq_eq_eq, List.forall₂_map_left_iff,
    List.forall₂_map_right_iff]
  simp only [Interval.same_iff_key_eq]

theorem contains_eq_of_agrees (h : List.Forall₂ Interval.Agrees r.intervals s.intervals)
    (hr : ∀ i ∈ r.intervals, i.isEmpty = false) (hs : ∀ i ∈ s.intervals, i.isEmpty = false)
    (hv : ∀ p ∈ r.intervals.zip s.intervals, Interval.IsIndifferent v p.1 p.2) :
    r.contains v = s.contains v := by
  unfold contains
  generalize r.intervals = is, s.intervals = js at *
  induction h with
  | nil => rfl
  | cons hij hrest ih =>
    obtain ⟨hi, his⟩ := List.forall_mem_cons.mp hr
    obtain ⟨hj, hjs⟩ := List.forall_mem_cons.mp hs
    obtain ⟨hv, hvs⟩ := List.forall_mem_cons.mp hv
    rw [List.any_cons, List.any_cons, hij.contains_eq hi hj hv, ih his hjs hvs]

theorem forall_nonempty_ofOptional (intervals : List (Option Interval)) :
    ∀ i ∈ (ofOptional intervals).intervals, i.isEmpty = false :=
  forall_ofIntervals (fun _ _ _ _ _ _ hc => hc) fun _ _ he => he

/-- A version compares alike with equal versions whose spellings it does not tell apart, and it is
in both or none of two equal ranges, of any intervals, whose bounds it does not tell apart.  An
ordered version tells nothing equal apart. -/
theorem contains_congr_of_same (v : Version) :
    (∀ a b : Version, a.same b = true → v.IsIndifferent a b →
      Ord.compare a v = Ord.compare b v) ∧
    (∀ is js : List (Option Interval), (ofOptional is).same (ofOptional js) = true →
      (∀ p ∈ (ofOptional is).intervals.zip (ofOptional js).intervals,
        Interval.IsIndifferent v p.1 p.2) →
      (ofOptional is).contains v = (ofOptional js).contains v) ∧
    (v.IsOrdered →
      (∀ a b : Version, v.IsIndifferent a b) ∧ ∀ i j : Interval, Interval.IsIndifferent v i j) := by
  refine ⟨fun a b h hv => ?versions, fun is js h hv => ?ranges, fun hv =>
    ⟨hv.isIndifferent, Interval.isIndifferent_of_isOrdered hv⟩⟩
  case versions =>
    rw [Std.OrientedOrd.eq_swap, Version.compare_congr_of_isIndifferent h hv,
      ← Std.OrientedOrd.eq_swap]
  case ranges =>
    have hagrees := (same_iff.mp h).imp fun _ _ hij => (Interval.same_iff.mp hij).1
    exact contains_eq_of_agrees hagrees (forall_nonempty_ofOptional is)
      (forall_nonempty_ofOptional js) hv

/-- `1.0.0-rc.01` and `1.0.0-rc.1` are one version to `1.0.0-1a.x`, though that is not ordered, and
so are the ranges from them on. -/
theorem contains_congr_of_same_spellings :
    let v (prerelease : String) : Version :=
      .ofComponents { major := 1, minor := some 0, patch := some 0, prerelease := some prerelease }
    let first : List (Option Interval) := [none, some (.above (v "rc.01") true), some .empty]
    let second : List (Option Interval) := [some (.above (v "rc.1") true)]
    ¬(v "1a.x").IsOrdered ∧ Ord.compare (v "rc.01") (v "1a.x") = Ord.compare (v "rc.1") (v "1a.x") ∧
      (ofOptional first).contains (v "1a.x") = (ofOptional second).contains (v "1a.x") := by
  intro v first second
  refine ⟨by decide +kernel, ?_, ?_⟩
  · exact (contains_congr_of_same _).1 _ _ (by decide +kernel) (by decide +kernel)
  · exact (contains_congr_of_same _).2.1 first second (by decide +kernel) (by decide +kernel)

/-- `1.0.0-0x`, which is not ordered, comes after `1.0.0-01` and before the equal `1.0.0-1`, and so
it is in one of two equal ranges. -/
theorem exists_contains_ne_of_same :
    let v (identifier : String) : Version :=
      .ofComponents { major := 1, minor := some 0, patch := some 0, prerelease := some identifier }
    (∀ text ∈ ["01", "1", "0x"], Version.parse ("1.0.0-" ++ text) = .ok (v text)) ∧
      (v "01").same (v "1") = true ∧ Ord.compare (v "01") (v "0x") = .lt ∧
      Ord.compare (v "1") (v "0x") = .gt ∧
      (above (v "01") true).same (above (v "1") true) = true ∧
      (above (v "01") true).contains (v "0x") = true ∧
      (above (v "1") true).contains (v "0x") = false := by
  decide +kernel

end Range

end Versioning
