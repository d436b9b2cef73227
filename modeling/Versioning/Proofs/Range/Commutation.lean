import Versioning.Proofs.Range.Equality
import Versioning.Proofs.Range.Rearrangement
import Versioning.Proofs.Range.Registers

/-! Versions taken out of a range one after the other.  Each interval falls into the same pieces in
whichever order two versions are taken out of it, but for the spelling of equal versions.  The
pieces of a separated range stay apart, and putting them in order leaves but one range. -/

namespace Versioning

/-! ### The pieces of one interval -/

namespace Interval

/-- What the order of a range looks at and what its equality looks at. -/
def mark (i : Interval) : (Cut × Cut) × Key := (i.cuts, i.key)

/-- Whether an interval holds something shows in its mark. -/
theorem map_mark_filter {intervals : List Interval} (h : ∀ i ∈ intervals, i.IsOrdered) :
    (intervals.filter (!·.isEmpty)).map mark =
      (intervals.map mark).filter fun m => m.1.1 < m.1.2 := by
  rw [List.filter_map]
  refine congrArg _ (List.filter_congr fun i hi => ?_)
  rw [Bool.eq_iff_iff, Bool.not_eq_true', isEmpty_eq_false_iff (h i hi)]
  exact decide_eq_true_iff.symm

variable {i : Interval} {v w : Version} (hi : i.IsOrdered) (hv : v.IsOrdered) (hw : w.IsOrdered)

include hi hv hw

/-- Two different versions leave the same pieces in either order. -/
theorem flatMap_without_comm (hne : v.place ≠ w.place) :
    (i.without v).flatMap (·.without w) = (i.without w).flatMap (·.without v) := by
  wlog hlt : v.place < w.place generalizing v w
  · exact (this hw hv hne.symm (lt_of_le_of_ne (not_lt.mp hlt) hne.symm)).symm
  cases hiv : i.contains v with
  | false =>
    cases hiw : i.contains w with
    | false => simp [without, hiv, hiw]
    | true =>
      have hbelow := contains_below_iff hi hw hv hiw
      have habove := contains_above_iff hi hw hv hiw
      rw [hiv] at hbelow habove
      simp [without, hiv, hiw, hbelow, habove]
  | true =>
    have hbelow := contains_below_iff hi hv hw hiv
    have habove := contains_above_iff hi hv hw hiv
    cases hiw : i.contains w with
    | false =>
      rw [hiw] at hbelow habove
      simp [without, hiv, hiw, hbelow, habove]
    | true =>
      have hbelow' := contains_below_iff hi hw hv hiw
      have habove' := contains_above_iff hi hw hv hiw
      rw [hiw] at hbelow habove
      rw [hiv] at hbelow' habove'
      simp [without, hiv, hiw, hbelow, habove, hbelow', habove', hlt, hlt.not_gt]

/-- Equal versions leave pieces with the same marks, and none of these has the other version. -/
theorem map_mark_without_of_same (hs : v.same w = true) :
    ((i.without v).flatMap (·.without w)).map mark =
      ((i.without w).flatMap (·.without v)).map mark := by
  have hplace : v.place = w.place := (Version.same_eq_true_iff hv hw).mp hs
  cases hiv : i.contains v with
  | false =>
    have hiw : i.contains w = false := Bool.eq_false_iff.mpr fun hiw => by
      rw [contains_of_same hi hv hw (Version.same_comm ▸ hs) hiw] at hiv
      contradiction
    simp [without, hiv, hiw]
  | true =>
    have hiw : i.contains w = true := contains_of_same hi hw hv hs hiv
    have hbelow := contains_below_iff hi hv hw hiv
    have habove := contains_above_iff hi hv hw hiv
    have hbelow' := contains_below_iff hi hw hv hiw
    have habove' := contains_above_iff hi hw hv hiw
    have hkey : Bound.key ⟨v, false⟩ = Bound.key ⟨w, false⟩ :=
      Bound.same_iff_key_eq.mp (by simpa [Bound.same] using hs)
    have hmark_below : mark { i with upper := ⟨v, false⟩ } = mark { i with upper := ⟨w, false⟩ } :=
      Prod.ext (Prod.ext rfl (Cut.beside_congr hplace)) (Prod.ext rfl hkey)
    have hmark_above : mark { i with lower := ⟨v, false⟩ } = mark { i with lower := ⟨w, false⟩ } :=
      Prod.ext (Prod.ext (Cut.beside_congr hplace) rfl) (Prod.ext hkey rfl)
    simp [without, hiv, hiw, hbelow, habove, hbelow', habove', hplace, hmark_below, hmark_above]

/-- Whatever two versions are taken out, the order in which they are does not count. -/
theorem map_mark_without_comm :
    ((i.without v).flatMap (·.without w)).map mark =
      ((i.without w).flatMap (·.without v)).map mark := by
  cases hs : v.same w with
  | true => exact map_mark_without_of_same hi hv hw hs
  | false =>
    have hne : v.place ≠ w.place := fun h => by
      rw [(Version.same_eq_true_iff hv hw).mpr h] at hs
      contradiction
    rw [flatMap_without_comm hi hv hw hne]

end Interval

/-! ### The pieces of a range -/

namespace Range

variable {r s : Range} {v w : Version}

/-- Settled ranges of intervals with the same marks are equal: both have them in order. -/
theorem IsSettled.same_of_perm (hr : r.IsSettled) (hs : s.IsSettled)
    (h : (r.intervals.map Interval.mark).Perm (s.intervals.map Interval.mark)) :
    r.same s = true := by
  have hsorted {t : Range} (ht : t.IsSettled) :
      (t.intervals.map Interval.mark).Pairwise (·.1.2 < ·.1.1) :=
    List.pairwise_map.mpr ht.pairwise
  have heq : r.intervals.map Interval.mark = s.intervals.map Interval.mark := by
    refine h.eq_of_pairwise (fun a b ha hb hab hba => ?_) (hsorted hr) (hsorted hs)
    obtain ⟨i, hi, rfl⟩ := List.mem_map.mp ha
    obtain ⟨j, hj, rfl⟩ := List.mem_map.mp hb
    have hlt : i.start < i.stop := (hr.proper i hi).start_lt_stop
    have hlt' : j.start < j.stop := (hs.proper j hj).start_lt_stop
    have hij : i.stop < j.start := hab
    have hji : j.stop < i.start := hba
    order
  have hkeys : (r.intervals.map Interval.mark).map Prod.snd =
      (s.intervals.map Interval.mark).map Prod.snd := congrArg _ heq
  rw [List.map_map, List.map_map] at hkeys
  exact same_iff_key_eq.mpr hkeys

theorem exclude_of_not_contains (h : ¬r.contains v = true) : r.exclude v = r := by
  rw [exclude, if_neg h]

/-- What is taken out of intervals that hold nothing leaves nothing. -/
theorem filter_flatMap_without (intervals : List Interval) (v : Version) :
    ((intervals.filter (!·.isEmpty)).flatMap (·.without v)).filter (!·.isEmpty) =
      (intervals.flatMap (·.without v)).filter (!·.isEmpty) := by
  induction intervals with
  | nil => rfl
  | cons i intervals ih =>
    rw [List.flatMap_cons, List.filter_append, ← ih, List.filter_cons]
    cases he : i.isEmpty with
    | false => simp
    | true => simp [Interval.without, Interval.contains_eq_false_of_isEmpty he, he]

section Separated

variable (hr : r.IsOrdered) (hne : ∀ i ∈ r.intervals, i.isEmpty = false) (hs : r.IsSeparated)
  (hv : v.IsOrdered)

include hr hs hv

theorem isSettled_exclude_of_contains (h : r.contains v = true) : (r.exclude v).IsSettled := by
  rw [exclude, if_pos h]
  exact isSettled_ofIntervals (isOrdered_without hr hv) (pairwise_without hr hv hs)

include hne

theorem perm_exclude : (r.exclude v).intervals.Perm
    ((r.intervals.flatMap (·.without v)).filter (!·.isEmpty)) := by
  unfold exclude
  split
  next => exact perm_ofIntervals_of_apart (isOrdered_without hr hv) (pairwise_without hr hv hs)
  next h =>
    have hwithout : r.intervals.flatMap (·.without v) = r.intervals := by
      have hall : ∀ i ∈ r.intervals, i.without v = [i] := fun i hi => by
        have hiv : i.contains v = false := by
          simpa using fun hiv => h (contains_iff.mpr ⟨i, hi, hiv⟩)
        simp [Interval.without, hiv]
      rw [List.flatMap_congr hall, List.flatMap_singleton']
    rw [hwithout, List.filter_eq_self.mpr fun i hi => by simp [hne i hi]]

theorem perm_exclude_exclude (hw : w.IsOrdered) : ((r.exclude v).exclude w).intervals.Perm
    (((r.intervals.flatMap (·.without v)).flatMap (·.without w)).filter (!·.isEmpty)) := by
  have hperm := perm_exclude hr hne hs hv
  have hnonempty : ∀ i ∈ (r.exclude v).intervals, i.isEmpty = false := fun i hi => by
    simpa using (List.mem_filter.mp (hperm.mem_iff.mp hi)).2
  refine (perm_exclude (hr.exclude hv) hnonempty (hs.exclude hr hv) hw).trans ?_
  rw [← filter_flatMap_without (r.intervals.flatMap (·.without v))]
  exact (hperm.flatMap_right _).filter _

/-- The order in which two versions are taken out does not count. -/
theorem exclude_comm (hw : w.IsOrdered) :
    ((r.exclude v).exclude w).same ((r.exclude w).exclude v) = true := by
  by_cases h : r.contains v = true ∨ r.contains w = true
  case neg =>
    obtain ⟨hrv, hrw⟩ := not_or.mp h
    rw [exclude_of_not_contains hrv, exclude_of_not_contains hrw, exclude_of_not_contains hrv,
      same_iff_key_eq]
  case pos =>
    -- The version that is in the range puts it in order, be it taken out first or last.
    have hsettled {a b : Version} (ha : a.IsOrdered) (hb : b.IsOrdered)
        (h : r.contains a = true ∨ r.contains b = true) : ((r.exclude a).exclude b).IsSettled := by
      by_cases hra : r.contains a = true
      · exact (isSettled_exclude_of_contains hr hs ha hra).exclude hb
      · rw [exclude_of_not_contains hra]
        exact isSettled_exclude_of_contains hr hs hb (h.resolve_left hra)
    refine (hsettled hv hw h).same_of_perm (hsettled hw hv h.symm) ?_
    have hordered {a b : Version} (ha : a.IsOrdered) (hb : b.IsOrdered) :
        ∀ i ∈ (r.intervals.flatMap (·.without a)).flatMap (·.without b), i.IsOrdered :=
      isOrdered_without (r := ⟨_⟩) (isOrdered_without hr ha) hb
    refine ((perm_exclude_exclude hr hne hs hv hw).map _).trans
      (.trans (.of_eq ?_) ((perm_exclude_exclude hr hne hs hw hv).map _).symm)
    rw [Interval.map_mark_filter (hordered hv hw), Interval.map_mark_filter (hordered hw hv),
      List.flatMap_assoc, List.flatMap_assoc, List.map_flatMap, List.map_flatMap]
    exact congrArg _ (List.flatMap_congr fun i hi =>
      Interval.map_mark_without_comm (hr i hi) hv hw)

end Separated

/-- Once a version is taken out, nothing is left to take out again. -/
theorem exclude_exclude (hr : r.IsOrdered) (hv : v.IsOrdered) :
    (r.exclude v).exclude v = r.exclude v :=
  exclude_of_not_contains fun h => by
    have hne := (contains_of_contains_exclude hr hv hv h).2
    rw [Version.same_refl] at hne
    contradiction

/-- Taking a version out of any range leaves none but what the range held, and not that version, so
that it need not be taken out twice.  If no two intervals of the range overlap or are adjacent, all
else is left, and two versions may be taken out in either order. -/
theorem exclude_exact {intervals : List (Option Interval)} (hr : (ofOptional intervals).IsOrdered)
    (hv : v.IsOrdered) (hw : w.IsOrdered) :
    let r := ofOptional intervals
    ((r.exclude v).contains w = true → r.contains w = true ∧ w.same v = false) ∧
      (r.exclude v).exclude v = r.exclude v ∧
      (r.IsSeparated →
        ((r.exclude v).contains w = true ↔ r.contains w = true ∧ w.same v = false) ∧
        ((r.exclude v).exclude w).same ((r.exclude w).exclude v) = true) :=
  ⟨contains_of_contains_exclude hr hv hw, exclude_exclude hr hv, fun hs =>
    ⟨contains_exclude_iff hr hv hs hw,
      exclude_comm hr (forall_nonempty_ofOptional intervals) hs hv hw⟩⟩

/-- Two spellings of one version fall out of an interval, in either order, with a third left in. -/
theorem exclude_exact_spellings :
    let v (prerelease : String) : Version :=
      .ofComponents { major := 1, minor := some 0, patch := some 0, prerelease := some prerelease }
    let r := ofOptional [some (.above (v "rc.2") false), none, some .empty,
      some ⟨⟨v "alpha", true⟩, ⟨v "rc.1", true⟩⟩]
    (r.exclude (v "rc.01")).contains (v "beta") = true ∧
      (r.exclude (v "rc.01")).exclude (v "rc.01") = r.exclude (v "rc.01") ∧
      ((r.exclude (v "rc.01")).exclude (v "rc.1")).same
        ((r.exclude (v "rc.1")).exclude (v "rc.01")) = true := by
  intro v r
  have hr : r.IsOrdered := by decide +kernel
  have hv : ∀ text ∈ ["rc.01", "rc.1", "beta"], (v text).IsOrdered := by decide +kernel
  obtain ⟨-, hagain, hs⟩ := exclude_exact hr (hv "rc.01" (by simp)) (hv "rc.1" (by simp))
  obtain ⟨-, -, hs'⟩ := exclude_exact hr (hv "rc.01" (by simp)) (hv "beta" (by simp))
  exact ⟨(hs' (by decide +kernel)).1.mpr (by decide +kernel), hagain, (hs (by decide +kernel)).2⟩

end Range

end Versioning
