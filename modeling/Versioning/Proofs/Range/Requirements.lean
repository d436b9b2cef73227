import Versioning.Proofs.Range.Accord
import Versioning.Proofs.Range.Constraints
import Versioning.Proofs.Range.Registers

/-! Lists of requirements, of which a version is meant to meet all.  The comparisons among them make
up one list of constraints, whose bounds are merged, and the result is narrowed by the other
requirements.  So a list holds whatever each of its requirements holds, and nothing that an
exclusion or a narrowing keeps out.  It holds more where two comparisons bound the same side
differently, since the looser bound wins, and where two of them do not overlap, since both are
kept. -/

namespace Versioning

namespace Range

/-- The only interval of the range, if a comparison shows it that is no exclusion. -/
def single? (r : Range) : Option Interval :=
  match r.intervals with
  | [i] => if i.IsSingle then some i else none
  | _ => none

/-- The range is settled, and a single comparison does not show it. -/
structure IsNarrowing (r : Range) : Prop where
  settled : r.IsSettled
  single : r.single? = none

end Range

/-- What one requirement of a list asks for. -/
inductive Requirement where
  | comparison (op : Operator) (v : Version)
  | narrowing (range : Range)

namespace Requirement

def comparison? : Requirement → Option (Operator × Version)
  | comparison op v => some (op, v)
  | narrowing _ => none

def narrowing? : Requirement → Option Range
  | comparison _ _ => none
  | narrowing range => some range

def IsOrdered : Requirement → Prop
  | comparison _ v => v.IsOrdered
  | narrowing range => range.IsNarrowing

/-- Whether the version meets the requirement. -/
def Holds (v : Version) : Requirement → Prop
  | comparison op w => op.holds (compare v w) = true
  | narrowing range => range.contains v = true

end Requirement

/-- What the comparisons hold together, narrowed by the other requirements. -/
def Range.ofRequirements (requirements : List Requirement) : Range :=
  let comparisons := requirements.filterMap Requirement.comparison?
  (requirements.filterMap Requirement.narrowing?).foldl inter
    (if comparisons.isEmpty then unbounded else ofConstraints comparisons)

/-! ### Comparisons -/

namespace Operator

variable {op : Operator} {i : Interval} {v w : Version}

/-- The interval of an operator holds just the versions that the operator holds of, ordered or
not. -/
theorem contains_interval? (h : op.interval? w = some i) :
    i.contains v = op.holds (compare v w) := by
  have hswap : compare w v = (compare v w).swap := Std.OrientedOrd.eq_swap
  cases op with
  | notEqual => cases h
  | equal =>
    obtain rfl := Option.some.inj h
    rw [Interval.contains, Interval.isEmpty_exact]
    cases hc : compare v w <;>
      simp [Interval.exact, Bound.admits, Side.compare, holds, hswap, hc]
  | less =>
    obtain rfl := Option.some.inj h
    cases hc : compare v w <;>
      simp [Interval.contains, Interval.isEmpty, Interval.below, Bound.admits, Side.compare, holds,
        hswap, hc]
  | lessEqual =>
    obtain rfl := Option.some.inj h
    cases hc : compare v w <;>
      simp [Interval.contains, Interval.isEmpty, Interval.below, Bound.admits, Side.compare, holds,
        hswap, hc]
  | greater =>
    obtain rfl := Option.some.inj h
    cases hc : compare v w <;>
      simp [Interval.contains, Interval.isEmpty, Interval.above, Bound.admits, Side.compare, holds,
        hc]
  | greaterEqual =>
    obtain rfl := Option.some.inj h
    cases hc : compare v w <;>
      simp [Interval.contains, Interval.isEmpty, Interval.above, Bound.admits, Side.compare, holds,
        hc]

theorem interval?_eq_none_iff : op.interval? w = none ↔ op = .notEqual := by
  cases op <;> simp [interval?]

theorem holds_notEqual_iff : holds .notEqual (compare v w) = true ↔ v.same w = false := by
  cases hc : compare v w <;> simp [holds, Version.same, hc]

theorem isSingle_of_interval? (h : op.interval? w = some i) : i.isEmpty = false ∧ i.IsSingle := by
  cases op with
  | notEqual => cases h
  | equal =>
    obtain rfl := Option.some.inj h
    exact ⟨Interval.isEmpty_exact, .inl (Option.isSome_of_mem Interval.point?_exact)⟩
  | less =>
    obtain rfl := Option.some.inj h
    exact ⟨rfl, .inr (by simp [Interval.below])⟩
  | lessEqual =>
    obtain rfl := Option.some.inj h
    exact ⟨rfl, .inr (by simp [Interval.below])⟩
  | greater =>
    obtain rfl := Option.some.inj h
    exact ⟨rfl, .inr (by simp [Interval.above])⟩
  | greaterEqual =>
    obtain rfl := Option.some.inj h
    exact ⟨rfl, .inr (by simp [Interval.above])⟩

end Operator

namespace Range

variable {cs : List (Operator × Version)} {versions : List Version} {ranges : List Range}
  {r : Range} {v : Version}

/-- A version meets all comparisons if it lies in each interval and is not taken out. -/
theorem forall_holds_iff : (∀ c ∈ cs, c.1.holds (compare v c.2) = true) ↔
    (∀ i ∈ admitted cs, i.contains v = true) ∧ ∀ u ∈ excluded cs, v.same u = false := by
  constructor
  · intro h
    constructor
    · intro i hi
      obtain ⟨⟨op, w⟩, hc, hi⟩ := List.mem_filterMap.mp hi
      rw [Operator.contains_interval? hi]
      exact h _ hc
    · intro u hu
      obtain ⟨⟨op, w⟩, hc, hu⟩ := List.mem_filterMap.mp hu
      obtain ⟨rfl, rfl⟩ : op = .notEqual ∧ w = u := by simpa using hu
      exact Operator.holds_notEqual_iff.mp (h _ hc)
  · rintro ⟨hadmitted, hexcluded⟩ ⟨op, w⟩ hc
    cases hi : op.interval? w with
    | some i =>
      rw [← Operator.contains_interval? hi]
      exact hadmitted i (List.mem_filterMap.mpr ⟨_, hc, hi⟩)
    | none =>
      obtain rfl := Operator.interval?_eq_none_iff.mp hi
      exact Operator.holds_notEqual_iff.mpr
        (hexcluded w (List.mem_filterMap.mpr ⟨_, hc, by simp⟩))

theorem isSettled_singleton {c : Interval} (h : c.IsProper) : IsSettled ⟨[c]⟩ :=
  ⟨List.forall_mem_singleton.mpr h, List.pairwise_singleton _ c⟩

theorem isSettled_foldl_exclude (hr : r.IsSettled) (hv : ∀ v ∈ versions, v.IsOrdered) :
    (versions.foldl exclude r).IsSettled := by
  induction versions generalizing r with
  | nil => exact hr
  | cons v versions ih =>
    obtain ⟨hv, hrest⟩ := List.forall_mem_cons.mp hv
    exact ih (hr.exclude hv) hrest

theorem contains_of_contains_foldl_inter (hr : r.IsOrdered) (hs : ∀ s ∈ ranges, s.IsOrdered)
    (hv : v.IsOrdered) (h : (ranges.foldl inter r).contains v = true) :
    r.contains v = true ∧ ∀ s ∈ ranges, s.contains v = true := by
  induction ranges generalizing r with
  | nil => exact ⟨h, List.forall_mem_nil _⟩
  | cons s ranges ih =>
    obtain ⟨hs, hrest⟩ := List.forall_mem_cons.mp hs
    obtain ⟨hinter, hall⟩ := ih (isOrdered_ofIntervals (isOrdered_pieces hr hs)) hrest h
    obtain ⟨hrv, hsv⟩ := (contains_inter_exact hr hs hv).1 hinter
    exact ⟨hrv, List.forall_mem_cons.mpr ⟨hsv, hall⟩⟩

theorem contains_foldl_inter (hr : r.IsSettled) (hs : ∀ s ∈ ranges, s.IsSettled)
    (hv : v.IsOrdered) (hrv : r.contains v = true) (h : ∀ s ∈ ranges, s.contains v = true) :
    (ranges.foldl inter r).contains v = true := by
  induction ranges generalizing r with
  | nil => exact hrv
  | cons s ranges ih =>
    obtain ⟨hs, hrest⟩ := List.forall_mem_cons.mp hs
    obtain ⟨hsv, hall⟩ := List.forall_mem_cons.mp h
    have hexact := (contains_inter_exact hr.isOrdered hs.isOrdered hv).2 hr.isSeparated
    exact ih (hr.inter hs) hrest ((hexact hs.isSeparated).mpr ⟨hrv, hsv⟩) hall

theorem contains_unbounded : unbounded.contains v = true := rfl

theorem beforeExclusions_of_admitted_eq_nil (h : admitted cs = []) (hne : cs ≠ []) :
    beforeExclusions cs = unbounded := by
  have hexcluded : excluded cs ≠ [] := by
    obtain ⟨⟨op, w⟩, hc⟩ := List.exists_mem_of_ne_nil _ hne
    obtain rfl := Operator.interval?_eq_none_iff.mp (List.filterMap_eq_nil_iff.mp h _ hc)
    have hw : w ∈ excluded cs := List.mem_filterMap.mpr ⟨_, hc, by simp⟩
    exact List.ne_nil_of_mem hw
  rw [beforeExclusions, h, if_neg (by simp), if_neg (by simpa using hexcluded)]

/-- What the exclusions are taken out of holds all versions that meet the comparisons. -/
theorem contains_ofConstraints_of_holds (ho : ∀ c ∈ cs, c.2.IsOrdered) (hne : cs ≠ [])
    (hv : v.IsOrdered) (h : ∀ c ∈ cs, c.1.holds (compare v c.2) = true) :
    (ofConstraints cs).IsSettled ∧ (ofConstraints cs).contains v = true := by
  obtain ⟨hadmitted, hexcluded⟩ := forall_holds_iff.mp h
  have hstart : (beforeExclusions cs).IsSettled ∧ (beforeExclusions cs).contains v = true := by
    by_cases hnil : admitted cs = []
    · rw [beforeExclusions_of_admitted_eq_nil hnil hne]
      exact ⟨IsSeed.unbounded.isSettled, contains_unbounded⟩
    · obtain ⟨c, hc, hproper, hcv⟩ :=
        exists_ofIntervals_of_contains (admitted_isOrdered ho) hnil hv hadmitted
      rw [beforeExclusions, if_pos (by simpa using hnil), hc]
      exact ⟨isSettled_singleton hproper, by simpa [contains] using hcv⟩
  rw [ofConstraints_eq]
  refine ⟨isSettled_foldl_exclude hstart.1 (forall_mem_excluded ho), ?_⟩
  rw [contains_foldl_exclude_iff hstart.1.isOrdered (forall_mem_excluded ho)
    hstart.1.isSeparated hv]
  exact ⟨hstart.2, hexcluded⟩

end Range

/-! ### Ranges of a single requirement -/

namespace Interval

variable {i : Interval}

theorem isProper_unbounded_inter (h : i.IsProper) : (unbounded.inter i).IsProper ∧
    (unbounded.inter i).start = i.start ∧ (unbounded.inter i).stop = i.stop := by
  have ho : unbounded.IsOrdered := by decide +kernel
  have hstart : (unbounded.inter i).start = i.start := by
    rw [start_inter ho h.ordered rfl h.nonempty]
    exact max_eq_right bot_le
  have hstop : (unbounded.inter i).stop = i.stop := by
    rw [stop_inter ho h.ordered rfl h.nonempty]
    exact min_eq_right le_top
  have hordered := ho.inter h.ordered
  refine ⟨⟨hordered, (isEmpty_eq_false_iff hordered).mpr ?_⟩, hstart, hstop⟩
  rw [hstart, hstop]
  exact h.start_lt_stop

theorem isSingle_of_unbounded_inter (h : i.isEmpty = false) (hs : (unbounded.inter i).IsSingle) :
    i.IsSingle := by
  rw [inter, if_neg (by simp [h, show unbounded.isEmpty = false from rfl])] at hs
  obtain ⟨⟨_ | u, f⟩, ⟨_ | v, g⟩⟩ := i
  · exact hs
  · exact .inr (by simp)
  · exact .inr (by simp)
  · exact hs

end Interval

namespace Range

variable {r : Range} {i : Interval} {u v : Version} {f g : Bool}

theorem single?_eq_some_iff : r.single? = some i ↔ r.intervals = [i] ∧ i.IsSingle := by
  obtain ⟨_ | ⟨j, _ | ⟨k, rest⟩⟩⟩ := r
  · simp [single?]
  · simp only [single?, Option.ite_none_right_eq_some, Option.some.injEq, List.cons.injEq, and_true]
    constructor
    · rintro ⟨hs, rfl⟩
      exact ⟨rfl, hs⟩
    · rintro ⟨rfl, hs⟩
      exact ⟨hs, rfl⟩
  · simp [single?]

/-- Taking a range together with the range of all versions does not make it a comparison. -/
theorem single?_unbounded_inter (h : r.IsNarrowing) : (unbounded.inter r).single? = none := by
  -- The pieces have the cuts of the intervals, though their flags may be others.
  have hsettled : IsSettled ⟨r.intervals.map Interval.unbounded.inter⟩ := by
    constructor
    · intro i hi
      obtain ⟨j, hj, rfl⟩ := List.mem_map.mp hi
      exact (Interval.isProper_unbounded_inter (h.settled.proper j hj)).1
    · refine List.pairwise_map.mpr (h.settled.pairwise.imp_of_mem fun {a b} ha hb hlt => ?_)
      rw [(Interval.isProper_unbounded_inter (h.settled.proper a ha)).2.2,
        (Interval.isProper_unbounded_inter (h.settled.proper b hb)).2.1]
      exact hlt
  have hinter : unbounded.inter r = ⟨r.intervals.map Interval.unbounded.inter⟩ := by
    have hpieces : unbounded.intervals.flatMap (fun a => r.intervals.map a.inter) =
        r.intervals.map Interval.unbounded.inter := List.append_nil _
    rw [inter, hpieces, hsettled.isFixpoint.renormalize]
  refine Option.eq_none_iff_forall_not_mem.mpr fun i hi => ?_
  rw [hinter] at hi
  obtain ⟨hone, hs⟩ := single?_eq_some_iff.mp hi
  obtain ⟨j, hj, rfl⟩ := List.map_eq_singleton_iff.mp hone
  have hproper := h.settled.proper j (hj ▸ .head [])
  have hsingle := single?_eq_some_iff.mpr
    ⟨hj, Interval.isSingle_of_unbounded_inter hproper.nonempty hs⟩
  rw [h.single] at hsingle
  contradiction

theorem single?_rays (hu : u.IsOrdered) (hv : v.IsOrdered)
    (h : Cut.beside u f < Cut.beside v (!g)) :
    (ofIntervals [.below u f, .above v g]).single? = none := by
  have hsettled : IsSettled ⟨[.below u f, .above v g]⟩ := by
    refine ⟨fun i hi => ?_, List.pairwise_pair.mpr h⟩
    rcases List.mem_pair.mp hi with rfl | rfl
    · exact ⟨⟨by simp [Interval.below, Bound.IsOrdered], by simpa [Interval.below,
        Bound.IsOrdered] using hu⟩, rfl⟩
    · exact ⟨⟨by simpa [Interval.above, Bound.IsOrdered] using hv, by simp [Interval.above,
        Bound.IsOrdered]⟩, rfl⟩
  rw [hsettled.isFixpoint.renormalize]
  rfl

theorem single?_exclude (hv : v.IsOrdered) : (unbounded.exclude v).single? = none :=
  single?_rays hv hv (Cut.before_lt_after v)

theorem isNarrowing_upTo (hu : u.IsOrdered) (hv : v.IsOrdered) :
    (upTo u v).IsNarrowing ∧ (upTo u v).compl.IsNarrowing := by
  have ho : (Interval.upTo u v).IsOrdered :=
    ⟨by simpa [Interval.upTo, Bound.IsOrdered] using hu,
      by simpa [Interval.upTo, Bound.IsOrdered] using hv⟩
  have hsettled : (upTo u v).IsSettled := (IsSeed.interval ho).isSettled
  cases he : (Interval.upTo u v).isEmpty with
  | true =>
    have hempty : upTo u v = empty := congrArg mk ((intervals_ofInterval _).trans (if_pos he))
    rw [hempty] at hsettled ⊢
    exact ⟨⟨hsettled, rfl⟩, hsettled.compl, rfl⟩
  | false =>
    have hone : upTo u v = ⟨[.upTo u v]⟩ := ofIntervals_singleton he
    have hlt : (Interval.upTo u v).start < (Interval.upTo u v).stop :=
      Interval.IsProper.start_lt_stop ⟨ho, he⟩
    refine ⟨⟨hsettled, ?_⟩, hsettled.compl, ?_⟩
    · rw [hone]
      exact if_neg (by simp [Interval.IsSingle, Interval.point?, Interval.upTo])
    · rw [hone]
      exact single?_rays hu hv hlt

end Range

/-! ### Requirements -/

namespace Range

variable {q : Requirement} {qs : List Requirement} {rs : List Range} {i : Interval} {v : Version}

theorem forall_mem_requirements {P : Requirement → Prop} : (∀ q ∈ qs, P q) ↔
    (∀ c ∈ qs.filterMap Requirement.comparison?, P (.comparison c.1 c.2)) ∧
      ∀ r ∈ qs.filterMap Requirement.narrowing?, P (.narrowing r) := by
  simp only [List.mem_filterMap]
  constructor
  · intro h
    constructor
    · rintro c ⟨q, hq, hc⟩
      cases q with
      | comparison op w =>
        obtain rfl := Option.some.inj hc
        exact h _ hq
      | narrowing r => cases hc
    · rintro r ⟨q, hq, hr⟩
      cases q with
      | comparison op w => cases hr
      | narrowing s =>
        obtain rfl := Option.some.inj hr
        exact h _ hq
  · rintro ⟨hcomparisons, hnarrowings⟩ q hq
    cases q with
    | comparison op w => exact hcomparisons (op, w) ⟨_, hq, rfl⟩
    | narrowing r => exact hnarrowings r ⟨_, hq, rfl⟩

/-- A list of requirements holds all versions that meet them. -/
theorem contains_ofRequirements_of_holds (ho : ∀ q ∈ qs, q.IsOrdered) (hv : v.IsOrdered)
    (h : ∀ q ∈ qs, q.Holds v) : (ofRequirements qs).contains v = true := by
  obtain ⟨hoc, hon⟩ := forall_mem_requirements.mp ho
  obtain ⟨hc, hn⟩ := forall_mem_requirements.mp h
  have hon : ∀ r ∈ qs.filterMap Requirement.narrowing?, r.IsSettled :=
    fun r hr => (hon r hr).settled
  unfold ofRequirements
  dsimp only
  split
  next => exact contains_foldl_inter IsSeed.unbounded.isSettled hon hv contains_unbounded hn
  next hne =>
    obtain ⟨hsettled, hcontains⟩ :=
      contains_ofConstraints_of_holds hoc (by simpa using hne) hv hc
    exact contains_foldl_inter hsettled hon hv hcontains hn

/-- Nothing in a list of requirements is kept out by a narrowing or an exclusion, nor by what the
other comparisons are merged into. -/
theorem contains_of_contains_ofRequirements (ho : ∀ q ∈ qs, q.IsOrdered) (hv : v.IsOrdered)
    (h : (ofRequirements qs).contains v = true) :
    (∀ r ∈ qs.filterMap Requirement.narrowing?, r.contains v = true) ∧
    (∀ u ∈ excluded (qs.filterMap Requirement.comparison?), v.same u = false) ∧
    (admitted (qs.filterMap Requirement.comparison?) ≠ [] →
      (ofIntervals (admitted (qs.filterMap Requirement.comparison?))).contains v = true) := by
  obtain ⟨hoc, hon⟩ := forall_mem_requirements.mp ho
  have hon : ∀ r ∈ qs.filterMap Requirement.narrowing?, r.IsOrdered :=
    fun r hr => (hon r hr).settled.isOrdered
  unfold ofRequirements at h
  dsimp only at h
  split at h
  next hnil =>
    rw [List.isEmpty_iff.mp hnil]
    refine ⟨(contains_of_contains_foldl_inter isOrdered_unbounded hon hv h).2, ?_, ?_⟩
    · exact List.forall_mem_nil _
    · exact fun hne => absurd rfl hne
  next =>
    have hordered : (ofConstraints (qs.filterMap Requirement.comparison?)).IsOrdered :=
      fun i hi => ((ascends_ofConstraints hoc).proper i hi).ordered
    obtain ⟨hcontains, hn⟩ := contains_of_contains_foldl_inter hordered hon hv h
    obtain ⟨hstart, hexcluded⟩ := contains_of_contains_ofConstraints hoc hv hcontains
    refine ⟨hn, hexcluded, fun hne => ?_⟩
    rwa [beforeExclusions, if_pos (by simpa using hne)] at hstart

/-- A list of requirements holds nothing else, if its comparisons accord. -/
theorem holds_of_contains_ofRequirements (ho : ∀ q ∈ qs, q.IsOrdered) (hv : v.IsOrdered)
    (haccord : ∀ a ∈ admitted (qs.filterMap Requirement.comparison?),
      ∀ b ∈ admitted (qs.filterMap Requirement.comparison?), a.Accords b)
    (h : (ofRequirements qs).contains v = true) : ∀ q ∈ qs, q.Holds v := by
  obtain ⟨hoc, _⟩ := forall_mem_requirements.mp ho
  obtain ⟨hn, hexcluded, hmerged⟩ := contains_of_contains_ofRequirements ho hv h
  refine forall_mem_requirements.mpr ⟨forall_holds_iff.mpr ⟨fun i hi => ?_, hexcluded⟩, hn⟩
  have hproper : ∀ i ∈ admitted (qs.filterMap Requirement.comparison?), i.IsProper := by
    intro i hi
    obtain ⟨c, hc, hinterval⟩ := List.mem_filterMap.mp hi
    exact ⟨admitted_isOrdered hoc i hi, (Operator.isSingle_of_interval? hinterval).1⟩
  have hne := List.ne_nil_of_mem hi
  obtain ⟨c, hc, _, hcv⟩ := exists_ofIntervals_of_accords hproper hne haccord
  have hv' := hmerged hne
  rw [hc] at hv'
  exact hcv v hv (by simpa [contains] using hv') i hi

theorem contains_ofRequirements_singleton_iff (ho : q.IsOrdered) (hv : v.IsOrdered) :
    (ofRequirements [q]).contains v = true ↔ q.Holds v := by
  have hqs : ∀ p ∈ [q], p.IsOrdered := List.forall_mem_singleton.mpr ho
  constructor
  · intro h
    refine holds_of_contains_ofRequirements hqs hv (fun a ha b hb => ?_) h q (.head [])
    cases q with
    | narrowing r => cases ha
    | comparison op w =>
      -- There is only one interval, which accords with itself.
      have ha : op.interval? w = some a := by simpa [admitted, Requirement.comparison?] using ha
      have hb : op.interval? w = some b := by simpa [admitted, Requirement.comparison?] using hb
      obtain rfl : a = b := Option.some.inj (ha.symm.trans hb)
      have hproper : a.IsProper :=
        ⟨Operator.isOrdered_interval? ho ha, (Operator.isSingle_of_interval? ha).1⟩
      exact hproper.accords_self
  · intro h
    exact contains_ofRequirements_of_holds hqs hv (List.forall_mem_singleton.mpr h)

theorem single?_ofRequirements (ho : q.IsOrdered) :
    (ofRequirements [q]).single? = q.comparison?.bind fun (op, w) => op.interval? w := by
  cases q with
  | narrowing r => exact single?_unbounded_inter ho
  | comparison op w =>
    change (ofConstraints [(op, w)]).single? = op.interval? w
    cases hi : op.interval? w with
    | none =>
      obtain rfl := Operator.interval?_eq_none_iff.mp hi
      exact single?_exclude ho
    | some i =>
      obtain ⟨he, hsingle⟩ := Operator.isSingle_of_interval? hi
      have hadmitted : admitted [(op, w)] = [i] := by simp [admitted, hi]
      have hop : ∀ c ∈ [(op, w)], c.1 ≠ .notEqual := by
        refine List.forall_mem_singleton.mpr fun hop => ?_
        rw [Operator.interval?_eq_none_iff.mpr hop] at hi
        cases hi
      rw [ofConstraints_eq_ofIntervals hop (by simp [hadmitted]), hadmitted,
        ofIntervals_singleton he]
      exact if_pos hsingle

theorem filterMap_single? (ho : ∀ q ∈ qs, q.IsOrdered) :
    (qs.map fun q => ofRequirements [q]).filterMap single? =
      admitted (qs.filterMap Requirement.comparison?) := by
  rw [List.filterMap_map, admitted, List.filterMap_filterMap]
  exact List.filterMap_congr fun q hq => single?_ofRequirements (ho q hq)

/-- A list of requirements holds whatever each of them holds, and nothing that an exclusion or a
narrowing does not hold.  The other comparisons are merged, so that all of them hold it if they
accord. -/
theorem contains_ofRequirements (ho : ∀ q ∈ qs, q.IsOrdered)
    (hrs : rs = qs.map fun q => ofRequirements [q]) (hv : v.IsOrdered) :
    ((∀ s ∈ rs, s.contains v = true) → (ofRequirements qs).contains v = true) ∧
    ((ofRequirements qs).contains v = true →
      (∀ s ∈ rs, s.single? = none → s.contains v = true) ∧
      (rs.filterMap single? ≠ [] → (ofIntervals (rs.filterMap single?)).contains v = true)) ∧
    ((∀ a ∈ rs.filterMap single?, ∀ b ∈ rs.filterMap single?, a.Accords b) →
      (ofRequirements qs).contains v = true → ∀ s ∈ rs, s.contains v = true) := by
  subst hrs
  rw [filterMap_single? ho]
  simp only [List.forall_mem_map]
  refine ⟨fun h => ?all, fun h => ⟨fun q hq hs => ?narrow, ?merged⟩, fun haccord h q hq => ?accord⟩
  case all =>
    refine contains_ofRequirements_of_holds ho hv fun q hq => ?_
    exact (contains_ofRequirements_singleton_iff (ho q hq) hv).mp (h q hq)
  case narrow =>
    obtain ⟨hn, hexcluded, _⟩ := contains_of_contains_ofRequirements ho hv h
    rw [single?_ofRequirements (ho q hq)] at hs
    refine (contains_ofRequirements_singleton_iff (ho q hq) hv).mpr ?_
    cases q with
    | narrowing r => exact hn r (List.mem_filterMap.mpr ⟨_, hq, rfl⟩)
    | comparison op w =>
      obtain rfl := Operator.interval?_eq_none_iff.mp hs
      have hc : (.notEqual, w) ∈ qs.filterMap Requirement.comparison? :=
        List.mem_filterMap.mpr ⟨_, hq, rfl⟩
      have hw := hexcluded w (List.mem_filterMap.mpr ⟨_, hc, by simp⟩)
      exact Operator.holds_notEqual_iff.mpr hw
  case merged => exact (contains_of_contains_ofRequirements ho hv h).2.2
  case accord =>
    rw [contains_ofRequirements_singleton_iff (ho q hq) hv]
    exact holds_of_contains_ofRequirements ho hv haccord h q hq

end Range

end Versioning
