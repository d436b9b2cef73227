import Versioning.Proofs.Range.Requirements

/-! When a range of constraints holds just the versions that satisfy them all.  No list lets a
version through that it excludes, and what it holds satisfies some constraint that is no exclusion,
if there is one.  Constraints that are no exclusions are united, though, so that all of them count
only where there is at most one bound on each side and the two sides meet: then the two rays merge
into what they share. -/

namespace Versioning

namespace Operator

variable {op : Operator} {v : Version}

/-- The operator bounds versions from below. -/
def isLower (op : Operator) : Bool := op = .greater ∨ op = .greaterEqual

/-- The operator bounds versions from above. -/
def isUpper (op : Operator) : Bool := op = .less ∨ op = .lessEqual

/-- The version of the operator is one that it holds of. -/
def isInclusive (op : Operator) : Bool := op.holds .eq

theorem interval?_of_isLower (h : op.isLower = true) :
    op.interval? v = some (.above v op.isInclusive) := by
  cases op <;> first | rfl | cases h

theorem interval?_of_isUpper (h : op.isUpper = true) :
    op.interval? v = some (.below v op.isInclusive) := by
  cases op <;> first | rfl | cases h

end Operator

/-- Whether the version satisfies the constraint. -/
def Constraint.admits (c : Constraint) (v : Version) : Except FormatError Bool := do
  return c.operator.holds (compare v (← Version.parse c.version))

theorem Constraint.satisfiedBy_eq_admits (c : Constraint) {text : String} {v : Version}
    (h : Version.parse text = .ok v) : c.satisfiedBy text = c.admits v := by
  rw [satisfiedBy, h]
  rfl

/-! ### Rays that meet -/

namespace Range

variable {cs : List (Operator × Version)} {a b v : Version} {f g : Bool}

/-- What lies above `a` and what lies below `b` share a version or leave none between them.  The
flags tell which of the two bounds are inclusive. -/
def Meets (a : Version) (f : Bool) (b : Version) (g : Bool) : Prop :=
  a < b ∨ a.same b = true ∧ (f || g) = true

instance : Decidable (Meets a f b g) :=
  inferInstanceAs (Decidable (compare a b = .lt ∨ a.same b = true ∧ (f || g) = true))

theorem meets_of_isEmpty_eq_false (h : Interval.isEmpty ⟨⟨some a, f⟩, ⟨some b, g⟩⟩ = false) :
    Meets a f b g := by
  cases hcompare : compare a b with
  | lt => exact .inl hcompare
  | eq => exact .inr ⟨by simp [Version.same, hcompare], by simp_all [Interval.isEmpty]⟩
  | gt => simp [Interval.isEmpty, hcompare] at h

/-- One ray has only a lower and the other only an upper bound, so the bounds that they merge into
are the ones that they share. -/
theorem union_rays (h : Meets a f b g) : (Interval.below b g).union (.above a f) =
    some ((Interval.above a f).inter (.below b g)) := by
  have hoverlaps : (Interval.below b g).overlaps (.above a f) =
      !Interval.isEmpty ⟨⟨some a, f⟩, ⟨some b, g⟩⟩ := rfl
  have hadjacent : (Interval.below b g).isAdjacent (.above a f) =
      (if b.same a then g != f else false) := by
    cases hsame : b.same a <;>
      simp [Interval.isAdjacent, Interval.isEmpty, Interval.below, Interval.above,
        Interval.touch?, hsame]
  have hmeet : ((Interval.below b g).overlaps (.above a f) ||
      (Interval.below b g).isAdjacent (.above a f)) = true := by
    rw [hoverlaps, hadjacent]
    rcases h with hlt | ⟨hsame, hflags⟩
    · have hcompare : compare a b = .lt := hlt
      simp [Interval.isEmpty, hcompare]
    · have hcompare : compare a b = .eq := by simpa [Version.same] using hsame
      have hsame' : b.same a = true := by
        rw [Version.same, Std.OrientedOrd.eq_swap, hcompare]
        rfl
      revert hflags
      cases f <;> cases g <;> simp [Interval.isEmpty, hcompare, hsame']
  rw [Interval.union, hmeet]
  rfl

theorem ofIntervals_rays_of_meets (h : Meets a f b g) :
    ofIntervals [.above a f, .below b g] =
        ofInterval ((Interval.above a f).inter (.below b g)) ∧
      ofIntervals [.below b g, .above a f] =
        ofInterval ((Interval.above a f).inter (.below b g)) := by
  -- A missing lower bound comes first, in whichever order the rays are given.
  have hrays : coalesce none [.below b g, .above a f] =
      (ofInterval ((Interval.above a f).inter (.below b g))).intervals := by
    cases he : ((Interval.above a f).inter (.below b g)).isEmpty <;>
      simp [coalesce, union_rays h, ofInterval, ofIntervals, stableSort, insertSorted, he]
  exact ⟨congrArg Range.mk hrays, congrArg Range.mk hrays⟩

/-! ### One bound on each side -/

/-- No constraint asks for a single version, at most one bounds each side, and where both sides are
bounded they meet. -/
structure IsBracket (cs : List (Operator × Version)) : Prop where
  equal : ∀ c ∈ cs, c.1 ≠ .equal
  lower : cs.countP (·.1.isLower) ≤ 1
  upper : cs.countP (·.1.isUpper) ≤ 1
  meets : ∀ c ∈ cs, ∀ d ∈ cs, c.1.isLower = true → d.1.isUpper = true →
    Meets c.2 c.1.isInclusive d.2 d.1.isInclusive

theorem IsBracket.sublist {ds : List (Operator × Version)} (h : IsBracket cs)
    (hds : ds.Sublist cs) : IsBracket ds where
  equal c hc := h.equal c (hds.subset hc)
  lower := hds.countP_le.trans h.lower
  upper := hds.countP_le.trans h.upper
  meets c hc d hd := h.meets c (hds.subset hc) d (hds.subset hd)

/-- The constraints that are no exclusions. -/
def positive (cs : List (Operator × Version)) : List (Operator × Version) :=
  cs.filter (·.1 ≠ .notEqual)

theorem admitted_positive (cs : List (Operator × Version)) :
    admitted (positive cs) = admitted cs := by
  rw [admitted, positive, List.filterMap_filter]
  refine List.filterMap_congr fun c _ => ?_
  split
  next => rfl
  next h =>
    have hop : c.1 = .notEqual := by simpa using h
    exact (Operator.interval?_eq_none_iff.mpr hop).symm

theorem admitted_pair {c d : Operator × Version} {i j : Interval}
    (hi : c.1.interval? c.2 = some i) (hj : d.1.interval? d.2 = some j) :
    admitted [c, d] = [i, j] := by
  obtain ⟨op, w⟩ := c
  obtain ⟨op', w'⟩ := d
  simp only at hi hj
  simp [admitted, hi, hj]

theorem IsBracket.isLower_or_isUpper (h : IsBracket cs) {c : Operator × Version}
    (hc : c ∈ positive cs) : c.1.isLower = true ∨ c.1.isUpper = true := by
  obtain ⟨hmem, hpositive⟩ := List.mem_filter.mp hc
  have hequal := h.equal c hmem
  obtain ⟨op, w⟩ := c
  cases op <;> simp_all [Operator.isLower, Operator.isUpper]

theorem IsBracket.length_positive_le (h : IsBracket cs) : (positive cs).length ≤ 2 := by
  have hbracket : IsBracket (positive cs) := h.sublist List.filter_sublist
  have hsides : (positive cs).countP (fun c => ¬c.1.isLower = true) ≤
      (positive cs).countP (·.1.isUpper) := by
    refine List.countP_mono_left fun c hc hnot => ?_
    exact (h.isLower_or_isUpper hc).resolve_left (of_decide_eq_true hnot)
  have hlength := List.length_eq_countP_add_countP (·.1.isLower) (l := positive cs)
  have hlower := hbracket.lower
  have hupper := hbracket.upper
  omega

/-- What is left of a bracket without its exclusions. -/
theorem IsBracket.positive_cases (h : IsBracket cs) : (positive cs).length ≤ 1 ∨
    ∃ c d, c.1.isLower = true ∧ d.1.isUpper = true ∧
      (positive cs = [c, d] ∨ positive cs = [d, c]) := by
  rcases h.length_positive_le.lt_or_eq with hlt | htwo
  · exact .inl (Nat.le_of_lt_succ hlt)
  · obtain ⟨c, d, hcd⟩ := List.length_eq_two.mp htwo
    have hbracket : IsBracket (positive cs) := h.sublist List.filter_sublist
    have hc := h.isLower_or_isUpper (c := c) (by simp [hcd])
    have hd := h.isLower_or_isUpper (c := d) (by simp [hcd])
    have hlower := hbracket.lower
    have hupper := hbracket.upper
    rw [hcd] at hlower hupper
    rcases hc with hc | hc <;> rcases hd with hd | hd
    · simp [hc, hd] at hlower
    · exact .inr ⟨c, d, hc, hd, .inl hcd⟩
    · exact .inr ⟨d, c, hd, hc, .inr hcd⟩
    · simp [hc, hd] at hupper

theorem contains_of_contains_ofInterval_inter {i j : Interval} (hi : i.IsOrdered)
    (hj : j.IsOrdered) (hv : v.IsOrdered) (h : (ofInterval (i.inter j)).contains v = true) :
    i.contains v = true ∧ j.contains v = true := by
  rw [contains_ofInterval] at h
  exact (Interval.contains_inter_iff hi hj hv).mp h

/-- The sides of a bracket unite to what both of them hold, whichever is given first. -/
theorem IsBracket.contains_of_contains_ofIntervals (h : IsBracket cs)
    (ho : ∀ c ∈ cs, c.2.IsOrdered) (hv : v.IsOrdered)
    (hr : (ofIntervals (admitted cs)).contains v = true) :
    ∀ i ∈ admitted cs, i.contains v = true := by
  rcases h.positive_cases with hlength | ⟨c, d, hlower, hupper, hpositive⟩
  · obtain ⟨i, hi, hiv⟩ := exists_contains_of_ofIntervals (admitted_isOrdered ho) hv hr
    have hle : (admitted cs).length ≤ 1 := by
      rw [← admitted_positive]
      exact (List.length_filterMap_le _ _).trans hlength
    obtain ⟨j, hj⟩ := List.length_eq_one_iff.mp (hle.antisymm (List.length_pos_of_mem hi))
    rw [hj, List.mem_singleton] at hi
    rw [hj, ← hi]
    exact List.forall_mem_singleton.mpr hiv
  · have hc : c ∈ positive cs := by rcases hpositive with h | h <;> simp [h]
    have hd : d ∈ positive cs := by rcases hpositive with h | h <;> simp [h]
    have hmeets := h.meets c (List.mem_of_mem_filter hc) d (List.mem_of_mem_filter hd) hlower hupper
    have habove := Operator.interval?_of_isLower (v := c.2) hlower
    have hbelow := Operator.interval?_of_isUpper (v := d.2) hupper
    obtain ⟨hfirst, hlast⟩ := ofIntervals_rays_of_meets hmeets
    have hboth := contains_of_contains_ofInterval_inter (v := v)
      (Operator.isOrdered_interval? (ho c (List.mem_of_mem_filter hc)) habove)
      (Operator.isOrdered_interval? (ho d (List.mem_of_mem_filter hd)) hbelow) hv
    rw [← admitted_positive] at hr ⊢
    rcases hpositive with hpositive | hpositive
    · rw [hpositive, admitted_pair habove hbelow] at hr ⊢
      rw [hfirst] at hr
      simpa using hboth hr
    · rw [hpositive, admitted_pair hbelow habove] at hr ⊢
      rw [hlast] at hr
      simpa using (hboth hr).symm

/-- A bracket with exclusions holds just the versions that all of its constraints hold of. -/
theorem IsBracket.contains_ofConstraints_iff (h : IsBracket cs) (hne : cs ≠ [])
    (ho : ∀ c ∈ cs, c.2.IsOrdered) (hv : v.IsOrdered) :
    (ofConstraints cs).contains v = true ↔ ∀ c ∈ cs, c.1.holds (compare v c.2) = true := by
  refine ⟨fun hr => ?_, fun hall => (contains_ofConstraints_of_holds ho hne hv hall).2⟩
  obtain ⟨hbefore, hexcluded⟩ := contains_of_contains_ofConstraints ho hv hr
  refine forall_holds_iff.mpr ⟨?_, hexcluded⟩
  by_cases hnil : admitted cs = []
  · rw [hnil]
    exact List.forall_mem_nil _
  · rw [beforeExclusions, if_pos (by simpa using hnil)] at hbefore
    exact h.contains_of_contains_ofIntervals ho hv hbefore

/-- Nothing that is excluded comes back, and what is held satisfies some constraint that is no
exclusion, if there is one. -/
theorem holds_of_contains_ofConstraints (ho : ∀ c ∈ cs, c.2.IsOrdered) (hv : v.IsOrdered)
    (hr : (ofConstraints cs).contains v = true) :
    (∀ c ∈ cs, c.1 = .notEqual → c.1.holds (compare v c.2) = true) ∧
      ((∃ c ∈ cs, c.1 ≠ .notEqual) →
        ∃ c ∈ cs, c.1 ≠ .notEqual ∧ c.1.holds (compare v c.2) = true) := by
  obtain ⟨hbefore, hexcluded⟩ := contains_of_contains_ofConstraints ho hv hr
  constructor
  · rintro ⟨op, w⟩ hc rfl
    exact Operator.holds_notEqual_iff.mpr
      (hexcluded w (List.mem_filterMap.mpr ⟨_, hc, by simp⟩))
  · rintro ⟨⟨op, w⟩, hc, hop⟩
    have hne : admitted cs ≠ [] := by
      intro hnil
      exact hop (Operator.interval?_eq_none_iff.mp (List.filterMap_eq_nil_iff.mp hnil _ hc))
    rw [beforeExclusions, if_pos (by simpa using hne)] at hbefore
    obtain ⟨i, hi, hiv⟩ := exists_contains_of_ofIntervals (admitted_isOrdered ho) hv hbefore
    obtain ⟨⟨op', w'⟩, hc', hi⟩ := List.mem_filterMap.mp hi
    refine ⟨(op', w'), hc', ?_, by rwa [← Operator.contains_interval? hi]⟩
    rintro rfl
    cases hi

/-! ### Constraints by their texts -/

instance (c : Constraint) (resolved : Operator × Version) : Decidable (Resolves c resolved) :=
  inferInstanceAs (Decidable (c.operator = resolved.1 ∧ Version.parse c.version = .ok resolved.2))

theorem admits_eq_ok_iff {c : Constraint} {d : Operator × Version} (h : Resolves c d) :
    c.admits v = .ok true ↔ d.1.holds (compare v d.2) = true := by
  have hadmits : c.admits v = .ok (d.1.holds (compare v d.2)) := by
    rw [Constraint.admits, h.1, h.2]
    rfl
  rw [hadmits, Except.ok.injEq]

/-- Constraints on ordered versions make up a range.  A version that it holds satisfies all of them
that exclude one, and some of the others if there are any.  If there are constraints, none of them
asks for a single version, and there is at most one bound on each side, then the range holds just
the versions that satisfy them all, provided that the sides meet.  Versions are looked at by their
places in the order; for one that a text shows, that is what the constraint says of the text. -/
theorem exists_build_satisfaction {constraints : List Constraint}
    (hcs : List.Forall₂ Resolves constraints cs) (ho : ∀ c ∈ cs, c.2.IsOrdered) :
    ∃ r, (build constraints).run = .ok r ∧ ∀ v : Version, v.IsOrdered →
      (r.contains v = true →
        (∀ c ∈ constraints, c.isExclusion = true → c.admits v = .ok true) ∧
        ((∃ c ∈ constraints, c.isExclusion = false) →
          ∃ c ∈ constraints, c.isExclusion = false ∧ c.admits v = .ok true)) ∧
      (constraints ≠ [] → IsBracket cs →
        (r.contains v = true ↔ ∀ c ∈ constraints, c.admits v = .ok true)) ∧
      ∀ text, Version.parse text = .ok v → ∀ c ∈ constraints, c.satisfiedBy text = c.admits v := by
  refine ⟨ofConstraints cs, run_build_eq_ok_iff.mpr ⟨cs, hcs, rfl⟩,
    fun v hv => ⟨fun hr => ?_, ?_, fun text htext c _ => c.satisfiedBy_eq_admits htext⟩⟩
  · obtain ⟨hexclusions, hpositive⟩ := holds_of_contains_ofConstraints ho hv hr
    constructor
    · intro c hc hexclusion
      obtain ⟨d, hd, hcd⟩ := exists_left_of_forall₂ hcs.flip hc
      have hop : d.1 = .notEqual := hcd.1 ▸ of_decide_eq_true hexclusion
      exact (admits_eq_ok_iff hcd).mpr (hexclusions d hd hop)
    · rintro ⟨c, hc, hexclusion⟩
      obtain ⟨d, hd, hcd⟩ := exists_left_of_forall₂ hcs.flip hc
      have hop : d.1 ≠ .notEqual := hcd.1 ▸ of_decide_eq_false hexclusion
      obtain ⟨d', hd', hop', hholds⟩ := hpositive ⟨d, hd, hop⟩
      obtain ⟨c', hc', hcd'⟩ := exists_left_of_forall₂ hcs hd'
      refine ⟨c', hc', decide_eq_false ?_, (admits_eq_ok_iff hcd').mpr hholds⟩
      rwa [hcd'.1]
  · intro hne hbracket
    have hne' : cs ≠ [] := by
      rintro rfl
      exact hne (List.forall₂_nil_right_iff.mp hcs)
    rw [hbracket.contains_ofConstraints_iff hne' ho hv]
    constructor
    · intro h c hc
      obtain ⟨d, hd, hcd⟩ := exists_left_of_forall₂ hcs.flip hc
      exact (admits_eq_ok_iff hcd).mpr (h d hd)
    · intro h d hd
      obtain ⟨c, hc, hcd⟩ := exists_left_of_forall₂ hcs hd
      exact (admits_eq_ok_iff hcd).mp (h c hc)

/-- Bounds between exclusions, with the upper one first, and sides that meet in a version which one
of them leaves out. -/
theorem exists_build_satisfaction_bounds :
    let v (major minor : Int) : Version := .ofComponents { major, minor := some minor }
    let bounds : List Constraint :=
      [⟨.notEqual, "1.5"⟩, ⟨.less, "2.0"⟩, ⟨.notEqual, "1.2"⟩, ⟨.greaterEqual, "1.0"⟩]
    let point : List Constraint := [⟨.greater, "1.0"⟩, ⟨.lessEqual, "1.0"⟩]
    (∃ r, (build bounds).run = .ok r ∧ r.contains (v 1 3) = true ∧ r.contains (v 1 5) = false ∧
      r.contains (v 0 9) = false) ∧
    ∃ r, (build point).run = .ok r ∧ r.contains (v 1 0) = false := by
  intro v bounds point
  have hv (major minor : Int) : (v major minor).IsOrdered := by simp [Version.IsOrdered, v,
    Version.ofComponents, Components.identifiers]
  constructor
  · let cs := [(Operator.notEqual, v 1 5), (.less, v 2 0), (.notEqual, v 1 2),
      (.greaterEqual, v 1 0)]
    have hcs : List.Forall₂ Resolves bounds cs :=
      .cons (by decide +kernel) (.cons (by decide +kernel) (.cons (by decide +kernel)
        (.cons (by decide +kernel) .nil)))
    obtain ⟨r, hr, hexact⟩ := exists_build_satisfaction hcs (by decide +kernel)
    have hbracket : IsBracket cs :=
      ⟨by decide, by decide, by decide, by decide +kernel⟩
    have hiff (u : Version) (hu : u.IsOrdered) := (hexact u hu).2.1 (by decide) hbracket
    refine ⟨r, hr, (hiff _ (hv 1 3)).mpr (by decide +kernel), ?_, ?_⟩
    · refine Bool.eq_false_of_not_eq_true fun h => ?_
      exact absurd ((hiff _ (hv 1 5)).mp h ⟨.notEqual, "1.5"⟩ (by decide)) (by decide +kernel)
    · refine Bool.eq_false_of_not_eq_true fun h => ?_
      exact absurd ((hiff _ (hv 0 9)).mp h ⟨.greaterEqual, "1.0"⟩ (by decide)) (by decide +kernel)
  · let cs := [(Operator.greater, v 1 0), (.lessEqual, v 1 0)]
    have hcs : List.Forall₂ Resolves point cs :=
      .cons (by decide +kernel) (.cons (by decide +kernel) .nil)
    obtain ⟨r, hr, hexact⟩ := exists_build_satisfaction hcs (by decide +kernel)
    have hbracket : IsBracket cs :=
      ⟨by decide, by decide, by decide, by decide +kernel⟩
    refine ⟨r, hr, Bool.eq_false_of_not_eq_true fun h => ?_⟩
    exact absurd (((hexact _ (hv 1 0)).2.1 (by decide) hbracket).mp h ⟨.greater, "1.0"⟩ (.head _))
      (by decide +kernel)

end Range

end Versioning
