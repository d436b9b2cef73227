import Versioning.Proofs.Native.Bounds
import Versioning.Proofs.Uri

/-! Native ranges written as URIs.  One interval, or single versions apart from each other, come
back from the URI, whatever the versions: no order of theirs is needed, since nothing merges but the
two rays of an interval.  But a grammar that has no use for single bars lets a version be spelled
with one, and the URI does not tell it from the bars between constraints. -/

namespace Versioning

namespace Interval

variable {i j : Interval} {p q : Version}

theorem same_eq_false_of_apart (hp : i.point? = some p) (hq : j.point? = some q)
    (h : i.Apart j) : p.same q = false := by
  obtain ⟨p', rfl, hpp⟩ := point?_eq_some_iff.mp hp
  obtain ⟨q', rfl, hqq⟩ := point?_eq_some_iff.mp hq
  refine Bool.eq_false_of_not_eq_true fun hpq => ?_
  have hqp : q'.same p' = true := by
    rw [Version.same_comm] at hqq hpq
    exact Version.same_trans hqq (Version.same_trans hpq hpp)
  -- Where the versions are equal, both intervals share the first one.
  have hoverlaps := h.1
  simp only [Version.same, Ordering.isEq_iff_eq_eq] at hpp hqq hpq hqp
  simp [overlaps, inter, isEmpty, Bound.tighter, Side.compare, hpp, hqq, hpq, hqp] at hoverlaps

theorem union_exact_eq_none (h : p.same q = false) : (exact p).union (exact q) = none := by
  have hadjacent : (exact p).isAdjacent (exact q) = false := by
    have h' : q.same p = false := Version.same_comm ▸ h
    simp [isAdjacent, touch?, exact, h, h']
  have hoverlaps : (exact p).overlaps (exact q) = false := by
    have hswap : Ord.compare q p = (Ord.compare p q).swap := Std.OrientedOrd.eq_swap
    cases hc : Ord.compare p q with
    | lt => simp [overlaps, inter, isEmpty, exact, Bound.tighter, Side.compare, hc, hswap]
    | eq => simp [Version.same, hc] at h
    | gt => simp [overlaps, inter, isEmpty, exact, Bound.tighter, Side.compare, hc, hswap]
  simp [union, isEmpty_exact, hoverlaps, hadjacent]

end Interval

namespace Range

variable {intervals : List Interval} {r : Range} {text scheme : String}

theorem perm_ofIntervals_of_nonempty (h : ∀ i ∈ intervals, i.isEmpty = false)
    (hp : intervals.Pairwise fun a b => a.union b = none ∧ b.union a = none) :
    (ofIntervals intervals).intervals.Perm intervals := by
  have hfilter : intervals.filter (!·.isEmpty) = intervals :=
    List.filter_eq_self.mpr fun i hi => by simp [h i hi]
  have hperm := perm_ofIntervals_of_union (hfilter.symm ▸ hp)
  rwa [hfilter] at hperm

theorem seriesClosed_isShown : Version.SeriesClosed Version.IsShown :=
  ⟨fun _ component h => h.increment component, fun major minor =>
    Version.isShown_ofRelease major minor 0⟩

theorem union_reread_eq_none (h : r.IsSeparated)
    (hpoints : ∀ i ∈ r.intervals, i.point?.isSome = true) :
    (r.intervals.map Interval.reread).Pairwise
      fun a b => a.union b = none ∧ b.union a = none := by
  refine List.pairwise_map.mpr (h.imp_of_mem fun {a b} ha hb hab => ?_)
  obtain ⟨p, hp⟩ := Option.isSome_iff_exists.mp (hpoints a ha)
  obtain ⟨q, hq⟩ := Option.isSome_iff_exists.mp (hpoints b hb)
  have hpq := Interval.same_eq_false_of_apart hp hq hab
  rw [Interval.reread, Interval.reread, hp, hq]
  exact ⟨Interval.union_exact_eq_none hpq, Interval.union_exact_eq_none (Version.same_comm ▸ hpq)⟩

/-- A native range that is one interval, or single versions apart from each other, is accepted as a
URI if none of its bounds is spelled with a bar.  It then holds the same ordered versions, and
the same versions altogether if the spellings of each single version have the same prerelease. -/
theorem exists_parseUri_of_parseNative [Specifier.Reader]
    (hr : (parseNative text scheme).run = .ok r)
    (hform : r.intervals.length ≤ 1 ∨
      r.IsSeparated ∧ ∀ i ∈ r.intervals, i.point?.isSome = true)
    (hbar : ∀ i ∈ r.intervals, (∀ v ∈ i.lower.version, '|' ∉ v.text.toList) ∧
      ∀ v ∈ i.upper.version, '|' ∉ v.text.toList)
    (hscheme : scheme ≠ "") (hslash : '/' ∉ scheme.toList) :
    ∃ r', (parseUri (r.toUri scheme)).run = .ok r' ∧
      (∀ v : Version, v.IsOrdered → r'.contains v = r.contains v) ∧
      ((∀ i ∈ r.intervals, ∀ p ∈ i.point?, ∀ q ∈ i.upper.version, p.prerelease = q.prerelease) →
        ∀ v : Version, r'.contains v = r.contains v) := by
  have hfound : ∀ v ∈ (parseNative text scheme).found, v.IsShown := by
    intro v hv
    obtain ⟨text, htext⟩ := Lookup.exists_parse_of_mem_found hv
    exact Version.isShown_of_parse htext
  have hshown := yields_parseNative seriesClosed_isShown text scheme hfound r hr
  have hlistable : r.BoundedBy Version.IsListable := fun i hi =>
    ⟨(hshown i hi).nonempty, fun v hv => ⟨(hshown i hi).lower v hv, (hbar i hi).1 v hv⟩,
      fun v hv => ⟨(hshown i hi).upper v hv, (hbar i hi).2 v hv⟩⟩
  have hsingle : r.intervals.length ≤ 1 ∨ ∀ i ∈ r.intervals, i.IsSingle :=
    hform.imp_right fun h i hi => .inl (h.2 i hi)
  -- Nothing merges, so the intervals come back in some order, whatever the order of versions.
  have hnone : (r.intervals.map Interval.reread).Pairwise
      fun a b => a.union b = none ∧ b.union a = none := by
    rcases hform with hlength | ⟨hseparated, hpoints⟩
    · obtain ⟨_ | ⟨i, _ | ⟨j, rest⟩⟩⟩ := r
      · exact List.Pairwise.nil
      · exact List.pairwise_singleton _ _
      · simp at hlength
    · exact union_reread_eq_none hseparated hpoints
  have hperm : (ofIntervals (r.intervals.map Interval.reread)).intervals.Perm
      (r.intervals.map Interval.reread) := by
    refine perm_ofIntervals_of_nonempty (fun j hj => ?_) hnone
    obtain ⟨i, hi, rfl⟩ := List.mem_map.mp hj
    exact Interval.isEmpty_reread (hshown i hi).nonempty
  have hcontains (v : Version) (h : ∀ i ∈ r.intervals, i.reread.contains v = i.contains v) :
      (ofIntervals (r.intervals.map Interval.reread)).contains v = r.contains v :=
    (hperm.any_eq).trans (contains_map_reread h)
  refine ⟨_, run_parseUri_toUri hscheme hslash hlistable hsingle, fun v hv => ?_, fun hp v => ?_⟩
  · refine hcontains v fun i hi => Interval.contains_reread (hshown i hi).nonempty ?_
    exact fun p _ q _ hs => Version.compare_congr_of_same hs hv
  · refine hcontains v fun i hi => Interval.contains_reread (hshown i hi).nonempty ?_
    exact fun p hpi q hq hs => Version.compare_congr_of_prerelease_eq hs (hp i hi p hpi q hq)

/-- Two single versions of npm come back, though a slash stands in one of them. -/
theorem exists_parseUri_of_parseNative_points :
    let v (major : Int) (prerelease : Option String) : Version :=
      .ofComponents { major, prerelease }
    let r := ofIntervals [.exact (v 2 none), .exact (v 1 (some "rc/1"))]
    (parseNative "v2 || =1-rc/1" "npm").run = .ok r ∧
      ∃ r', (parseUri (r.toUri "npm")).run = .ok r' ∧ r'.contains (v 1 (some "rc/1")) = true := by
  intro v r
  have hr : (parseNative "v2 || =1-rc/1" "npm").run = .ok r := by decide +kernel
  obtain ⟨r', hr', _, hcontains⟩ := exists_parseUri_of_parseNative hr (.inr (by decide +kernel))
    (by decide +kernel) (by decide : "npm" ≠ "") (by decide)
  refine ⟨hr, r', hr', ?_⟩
  rw [hcontains (by decide +kernel)]
  decide +kernel

/-- A prerelease may be spelled with a bar.  If no version stands after the bar, the URI is not
accepted; if a constraint does, the URI shows another range. -/
theorem exists_parseUri_of_bar :
    let v (prerelease : String) : Version :=
      .ofComponents { major := 1, minor := some 0, patch := some 0, prerelease := some prerelease }
    let two : Version := .ofComponents { major := 2 }
    (∀ native ∈ [("1.0.0-a|b", "npm"), ("= 1.0.0-a|b", "gem"), ("===1.0.0-a|b", "pypi"),
        ("[1.0.0-a|b]", "maven"), ("[1.0.0-a|b]", "nuget")],
      (parseNative native.1 native.2).run = .ok (exact (v "a|b")) ∧
        (parseUri ((exact (v "a|b")).toUri native.2)).run = .error (.version (some "b"))) ∧
    (parseNative ">=1.0.0-a|<2" "npm").run = .ok (above (v "a|<2") true) ∧
      (above (v "a|<2") true).contains two = true ∧
      (parseUri ((above (v "a|<2") true).toUri "npm")).run = .ok (upTo (v "a") two) ∧
      (upTo (v "a") two).contains two = false := by
  decide +kernel

end Range

end Versioning
