import Versioning.Proofs.Lookup
import Versioning.Proofs.Range.Complement
import Versioning.Proofs.Range.Exclusion
import Versioning.Proofs.Range.Renormalization
import Versioning.Range.Constraints

/-! Ranges made of constraints.  What the operators admit is merged as any intervals are.  If it
starts alike, it stays apart, so that each exclusion takes out its version alone. -/

namespace Versioning

namespace Operator

variable {op op' : Operator} {u v : Version} {a b : Interval}

/-- An operator has no bounds but its version. -/
theorem version_of_mem_interval? (ha : a ∈ op.interval? v) :
    (∀ u ∈ a.lower.version, u = v) ∧ ∀ u ∈ a.upper.version, u = v := by
  cases op with
  | notEqual => cases ha
  | equal =>
    obtain rfl := Option.some.inj ha
    simp [Interval.exact]
  | less =>
    obtain rfl := Option.some.inj ha
    simp [Interval.below]
  | lessEqual =>
    obtain rfl := Option.some.inj ha
    simp [Interval.below]
  | greater =>
    obtain rfl := Option.some.inj ha
    simp [Interval.above]
  | greaterEqual =>
    obtain rfl := Option.some.inj ha
    simp [Interval.above]

theorem isOrdered_interval? (hv : v.IsOrdered) (ha : a ∈ op.interval? v) : a.IsOrdered := by
  obtain ⟨hlower, hupper⟩ := version_of_mem_interval? ha
  exact ⟨fun u hu => hlower u hu ▸ hv, fun u hu => hupper u hu ▸ hv⟩

/-- What starts at the version of its operator starts after it for `>`, and with it otherwise. -/
theorem lower_of_mem_interval? (ha : a ∈ op.interval? v) (hu : u ∈ a.lower.version) :
    u = v ∧ (op = .greater ∧ a.lower.inclusive = false ∨
      (op = .equal ∨ op = .greaterEqual) ∧ a.lower.inclusive = true) := by
  cases op with
  | notEqual => cases ha
  | equal =>
    obtain rfl := Option.some.inj ha
    exact ⟨(Option.some.inj hu).symm, by simp [Interval.exact]⟩
  | less =>
    obtain rfl := Option.some.inj ha
    cases hu
  | lessEqual =>
    obtain rfl := Option.some.inj ha
    cases hu
  | greater =>
    obtain rfl := Option.some.inj ha
    exact ⟨(Option.some.inj hu).symm, by simp [Interval.above]⟩
  | greaterEqual =>
    obtain rfl := Option.some.inj ha
    exact ⟨(Option.some.inj hu).symm, by simp [Interval.above]⟩

end Operator

namespace Range

/-- No `>` stands beside a `=` or `>=` of an equal version. -/
def StartAlike (constraints : List (Operator × Version)) : Prop :=
  ∀ c ∈ constraints, ∀ d ∈ constraints, c.2.same d.2 = true → c.1 = .greater →
    d.1 ≠ .equal ∧ d.1 ≠ .greaterEqual

instance (constraints : List (Operator × Version)) : Decidable (StartAlike constraints) :=
  inferInstanceAs (Decidable (∀ c ∈ constraints, ∀ d ∈ constraints, c.2.same d.2 = true →
    c.1 = .greater → d.1 ≠ .equal ∧ d.1 ≠ .greaterEqual))

/-- The intervals that the operators admit. -/
def admitted (constraints : List (Operator × Version)) : List Interval :=
  constraints.filterMap fun (op, v) => op.interval? v

/-- The versions that are taken out. -/
def excluded (constraints : List (Operator × Version)) : List Version :=
  constraints.filterMap fun (op, v) => if op = .notEqual then some v else none

/-- What the exclusions are taken out of. -/
def beforeExclusions (constraints : List (Operator × Version)) : Range :=
  if !(admitted constraints).isEmpty then ofIntervals (admitted constraints)
  else if (excluded constraints).isEmpty then empty
  else unbounded

theorem ofConstraints_eq (constraints : List (Operator × Version)) :
    ofConstraints constraints =
      (excluded constraints).foldl exclude (beforeExclusions constraints) := rfl

variable {cs ds : List (Operator × Version)} {v : Version}

theorem ofConstraints_eq_ofIntervals (h : ∀ c ∈ cs, c.1 ≠ .notEqual) (hne : admitted cs ≠ []) :
    ofConstraints cs = ofIntervals (admitted cs) := by
  have hnone : excluded cs = [] := by
    rw [excluded, List.filterMap_eq_nil_iff]
    intro c hc
    simp [h c hc]
  rw [ofConstraints_eq, hnone, beforeExclusions, if_pos (by simpa using hne)]
  rfl

theorem ofConstraints_singleton {op : Operator} {i : Interval} (h : op.interval? v = some i) :
    ofConstraints [(op, v)] = ofInterval i := by
  have hop : op ≠ .notEqual := by
    rintro rfl
    cases h
  have hadmitted : admitted [(op, v)] = [i] := by simp [admitted, h]
  rw [ofConstraints_eq_ofIntervals (List.forall_mem_singleton.mpr hop) (by simp [hadmitted]),
    hadmitted, ofInterval]

/-- What holds of the merged intervals, of no version and of all versions holds of what the
exclusions are taken out of. -/
theorem beforeExclusions_cases {Q : Range → Prop} (hadmitted : Q (ofIntervals (admitted cs)))
    (hempty : Q empty) (hunbounded : Q unbounded) : Q (beforeExclusions cs) := by
  unfold beforeExclusions
  split
  · exact hadmitted
  · split
    · exact hempty
    · exact hunbounded

/-- If each exclusion keeps it, it holds of the range. -/
theorem ofConstraints_induction {Q : Range → Prop} (hadmitted : Q (ofIntervals (admitted cs)))
    (hempty : Q empty) (hunbounded : Q unbounded)
    (hexclude : ∀ r, Q r → ∀ v ∈ excluded cs, Q (r.exclude v)) : Q (ofConstraints cs) :=
  List.foldlRecOn (excluded cs) exclude (beforeExclusions_cases hadmitted hempty hunbounded)
    hexclude

theorem forall_mem_excluded {P : Version → Prop} (h : ∀ c ∈ cs, P c.2) :
    ∀ v ∈ excluded cs, P v := by
  intro v hv
  obtain ⟨⟨op, u⟩, hc, hv⟩ := List.mem_filterMap.mp hv
  obtain ⟨_, rfl⟩ : op = .notEqual ∧ u = v := by simpa using hv
  exact h _ hc

theorem admitted_isOrdered (h : ∀ c ∈ cs, c.2.IsOrdered) : ∀ i ∈ admitted cs, i.IsOrdered := by
  intro i hi
  obtain ⟨c, hc, hi⟩ := List.mem_filterMap.mp hi
  exact Operator.isOrdered_interval? (h c hc) hi

theorem admitted_startsAlike (hs : StartAlike cs) :
    ∀ a ∈ admitted cs, ∀ b ∈ admitted cs, a.StartsAlike b := by
  intro a ha b hb u hu v hv huv
  obtain ⟨c, hc, ha⟩ := List.mem_filterMap.mp ha
  obtain ⟨d, hd, hb⟩ := List.mem_filterMap.mp hb
  obtain ⟨rfl, hca⟩ := Operator.lower_of_mem_interval? ha hu
  obtain ⟨rfl, hdb⟩ := Operator.lower_of_mem_interval? hb hv
  have hvu : d.2.same c.2 = true := by
    rw [Version.same, Std.OrientedOrd.eq_swap, Ordering.isEq_swap]
    exact huv
  have hcd := hs c hc d hd huv
  have hdc := hs d hd c hc hvu
  rcases hca with ⟨hop, ha⟩ | ⟨hop, ha⟩ <;> rcases hdb with ⟨hop', hb⟩ | ⟨hop', hb⟩ <;>
    simp_all

theorem isOrdered_unbounded : unbounded.IsOrdered := by decide +kernel

theorem isOrdered_beforeExclusions (h : ∀ c ∈ cs, c.2.IsOrdered) :
    (beforeExclusions cs).IsOrdered :=
  beforeExclusions_cases (isOrdered_ofIntervals (admitted_isOrdered h)) (List.forall_mem_nil _)
    isOrdered_unbounded

theorem isSeparated_beforeExclusions (h : ∀ c ∈ cs, c.2.IsOrdered) (hs : StartAlike cs) :
    (beforeExclusions cs).IsSeparated := by
  refine beforeExclusions_cases ?_ List.Pairwise.nil (List.pairwise_singleton _ _)
  exact isSeparated_ofIntervals_of_startsAlike (admitted_isOrdered h)
    fun a ha b hb _ _ => admitted_startsAlike hs a ha b hb

theorem contains_of_contains_ofConstraints (h : ∀ c ∈ cs, c.2.IsOrdered) (hv : v.IsOrdered)
    (hc : (ofConstraints cs).contains v = true) :
    (beforeExclusions cs).contains v = true ∧ ∀ u ∈ excluded cs, v.same u = false :=
  contains_of_contains_foldl_exclude (isOrdered_beforeExclusions h) (forall_mem_excluded h) hv hc

/-- A range of constraints that start alike holds what the operators admit, without the versions
that are taken out. -/
theorem contains_ofConstraints_iff (h : ∀ c ∈ cs, c.2.IsOrdered) (hs : StartAlike cs)
    (hv : v.IsOrdered) :
    (ofConstraints cs).contains v = true ↔
      (beforeExclusions cs).contains v = true ∧ ∀ u ∈ excluded cs, v.same u = false := by
  rw [ofConstraints_eq]
  exact contains_foldl_exclude_iff (isOrdered_beforeExclusions h) (forall_mem_excluded h)
    (isSeparated_beforeExclusions h hs) hv

theorem ascends_exclude {r : Range} (hr : Ascends r.intervals) (hv : v.IsOrdered) :
    Ascends (r.exclude v).intervals := by
  unfold exclude
  split
  · exact ascends_ofIntervals (isOrdered_without (fun i hi => (hr.proper i hi).ordered) hv)
  · exact hr

/-- Whatever the constraints, the intervals of their range ascend. -/
theorem ascends_ofConstraints (h : ∀ c ∈ cs, c.2.IsOrdered) :
    Ascends (ofConstraints cs).intervals := by
  refine ofConstraints_induction (Q := fun r => Ascends r.intervals) ?admitted ?empty ?unbounded
    fun r hr v hv => ascends_exclude hr (forall_mem_excluded h v hv)
  case admitted => exact ascends_ofIntervals (admitted_isOrdered h)
  case empty => exact ⟨List.forall_mem_nil _, List.Pairwise.nil⟩
  case unbounded => exact ascends_ofIntervals (List.forall_mem_singleton.mpr (by decide +kernel))

/-! ### Constraints by their texts -/

/-- A constraint beside its operator and the version that its text shows. -/
def Resolves (c : Constraint) (resolved : Operator × Version) : Prop :=
  c.operator = resolved.1 ∧ Version.parse c.version = .ok resolved.2

theorem run_resolve_eq_ok_iff {c : Constraint} {resolved : Operator × Version} :
    c.resolve.run = .ok resolved ↔ Resolves c resolved := by
  unfold Constraint.resolve Resolves
  rw [Lookup.run_bind_eq_ok_iff]
  simp only [Lookup.run_version, String.ofList_toList, Lookup.run_pure, Except.ok.injEq]
  constructor
  · rintro ⟨v, hv, rfl⟩
    exact ⟨rfl, hv⟩
  · rintro ⟨hop, hv⟩
    exact ⟨resolved.2, hv, Prod.ext hop rfl⟩

theorem run_build_eq_ok_iff {cs : List Constraint} {r : Range} :
    (build cs).run = .ok r ↔ ∃ rs, List.Forall₂ Resolves cs rs ∧ ofConstraints rs = r := by
  unfold build
  rw [Lookup.run_bind_eq_ok_iff]
  simp only [Lookup.run_mapM_eq_ok_iff, run_resolve_eq_ok_iff, Lookup.run_pure, Except.ok.injEq]

end Range

end Versioning
