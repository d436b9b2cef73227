import Versioning.Proofs.Range.Bounds
import Versioning.Proofs.Range.Registers
import Versioning.Proofs.Range.Satisfaction
import Versioning.Proofs.Range.Spelling
import Versioning.Proofs.Version.Equality
import Versioning.Uri

/-! Ranges written as URIs and read again.  A URI is one list of constraints, in which it is lost
which of them stand for one interval.  They find together again if there is only one interval, or if
each has a constraint of its own; then the intervals come back as they were, but for two things that
no constraint shows: the flag of a bound without a version, and the second spelling of a single
version. -/

namespace Versioning

namespace Bound

/-- The bound as it is read again. -/
def reread (b : Bound) : Bound := if b.version.isSome then b else {}

/-- Neither bound has a version, or they have equal ones and the same flag. -/
def Agrees (a b : Bound) : Prop :=
  match a.version, b.version with
  | none, none => True
  | some u, some v => u.same v = true ∧ a.inclusive = b.inclusive
  | _, _ => False

variable {b : Bound} {v : Version}

theorem agrees_refl (b : Bound) : b.Agrees b := by
  unfold Agrees
  cases b.version with
  | none => trivial
  | some v => exact ⟨Version.same_refl v, rfl⟩

theorem version_reread : b.reread.version = b.version := by
  obtain ⟨_ | v, f⟩ := b <;> rfl

theorem agrees_reread : b.reread.Agrees b := by
  obtain ⟨_ | v, f⟩ := b
  · trivial
  · exact agrees_refl _

theorem admits_reread (side : Side) : b.reread.admits side v = b.admits side v := by
  obtain ⟨_ | u, f⟩ := b <;> rfl

theorem start_reread : b.reread.start = b.start := by
  obtain ⟨_ | u, f⟩ := b <;> rfl

theorem stop_reread : b.reread.stop = b.stop := by
  obtain ⟨_ | u, f⟩ := b <;> rfl

end Bound

namespace Interval

/-- The constraints of the interval, with the versions that they compare with. -/
def resolved (i : Interval) : List (Operator × Version) :=
  match i.point? with
  | some v => [(.equal, v)]
  | none =>
    let lower := i.lower.version.map fun v =>
      (if i.lower.inclusive then Operator.greaterEqual else .greater, v)
    let upper := i.upper.version.map fun v =>
      (if i.upper.inclusive then Operator.lessEqual else .less, v)
    lower.toList ++ upper.toList

/-- The interval as it is read again. -/
def reread (i : Interval) : Interval :=
  match i.point? with
  | some v => .exact v
  | none => ⟨i.lower.reread, i.upper.reread⟩

/-- The bounds of both intervals agree. -/
def Agrees (a b : Interval) : Prop := a.lower.Agrees b.lower ∧ a.upper.Agrees b.upper

variable {i : Interval} {p v : Version}

theorem constraints_eq : i.constraints = i.resolved.map Constraint.ofResolved := by
  unfold constraints resolved
  cases i.point? with
  | some v => rfl
  | none => cases i.lower.version <;> cases i.upper.version <;> rfl

theorem constraints_reread : i.reread.constraints = i.constraints := by
  cases hp : i.point? with
  | some p => simp [constraints, reread, hp, point?_exact]
  | none =>
    obtain ⟨⟨_ | min, f⟩, ⟨_ | max, g⟩⟩ := i
    · rfl
    · rfl
    · rfl
    · simp [reread, hp, Bound.reread]

theorem agrees_reread : i.reread.Agrees i := by
  cases hp : i.point? with
  | some p =>
    obtain ⟨q, rfl, hs⟩ := point?_eq_some_iff.mp hp
    rw [reread, hp]
    exact ⟨Bound.agrees_refl _, hs, rfl⟩
  | none =>
    rw [reread, hp]
    exact ⟨Bound.agrees_reread, Bound.agrees_reread⟩

theorem isUnbounded_reread : i.reread.isUnbounded = i.isUnbounded := by
  cases hp : i.point? with
  | some p =>
    obtain ⟨q, rfl, _⟩ := point?_eq_some_iff.mp hp
    rw [reread, hp]
    rfl
  | none => simp [reread, hp, isUnbounded, Bound.version_reread]

theorem isEmpty_reread (h : i.isEmpty = false) : i.reread.isEmpty = false := by
  cases hp : i.point? with
  | some p =>
    rw [reread, hp]
    exact isEmpty_exact
  | none =>
    rw [reread, hp]
    obtain ⟨⟨_ | min, f⟩, ⟨_ | max, g⟩⟩ := i
    · rfl
    · rfl
    · rfl
    · exact h

/-- Reading an interval again can only matter to a version between two spellings of its point. -/
theorem contains_reread (h : i.isEmpty = false)
    (hv : ∀ p ∈ i.point?, ∀ q ∈ i.upper.version, p.same q = true →
      Ord.compare v p = Ord.compare v q) : i.reread.contains v = i.contains v := by
  rw [contains, contains, h, isEmpty_reread h]
  cases hp : i.point? with
  | some p =>
    obtain ⟨q, rfl, hs⟩ := point?_eq_some_iff.mp hp
    have hcompare : Ord.compare p v = Ord.compare q v := by
      rw [Std.OrientedOrd.eq_swap, hv p hp q rfl hs, ← Std.OrientedOrd.eq_swap]
    simp [reread, hp, exact, Bound.admits, Side.compare, hcompare]
  | none => simp [reread, hp, Bound.admits_reread]

theorem IsProper.reread (h : i.IsProper) :
    i.reread.IsProper ∧ i.reread.start = i.start ∧ i.reread.stop = i.stop := by
  have he := isEmpty_reread h.nonempty
  cases hp : i.point? with
  | some p =>
    obtain ⟨q, rfl, hs⟩ := point?_eq_some_iff.mp hp
    have hpo := h.ordered.lower p rfl
    have hplace := (Version.same_eq_true_iff hpo (h.ordered.upper q rfl)).mp hs
    have hexact : (exact p).IsOrdered := ⟨h.ordered.lower, h.ordered.lower⟩
    rw [Interval.reread, hp] at he ⊢
    exact ⟨⟨hexact, he⟩, rfl, Cut.beside_congr hplace⟩
  | none =>
    have hordered {b : Bound} (hb : b.IsOrdered) : b.reread.IsOrdered :=
      .of_version hb hb (.inl Bound.version_reread)
    rw [Interval.reread, hp] at he ⊢
    exact ⟨⟨⟨hordered h.ordered.lower, hordered h.ordered.upper⟩, he⟩, Bound.start_reread,
      Bound.stop_reread⟩

theorem operator_ne_of_mem_resolved {c : Operator × Version} (h : c ∈ i.resolved) :
    c.1 ≠ .notEqual := by
  cases hp : i.point? with
  | some p =>
    obtain rfl : c = (.equal, p) := by simpa [resolved, hp] using h
    simp
  | none =>
    obtain ⟨⟨_ | min, f⟩, ⟨_ | max, g⟩⟩ := i <;> cases f <;> cases g <;>
      simp [resolved, hp] at h <;> rcases h with rfl | rfl <;> simp

theorem resolved_ne_nil (h : i.isUnbounded = false) : i.resolved ≠ [] := by
  cases hp : i.point? with
  | some p => simp [resolved, hp]
  | none =>
    obtain ⟨⟨_ | a, f⟩, ⟨_ | b, g⟩⟩ := i
    · contradiction
    · simp [resolved, hp]
    · simp [resolved, hp]
    · simp [resolved, hp]

theorem forall_mem_resolved {P : Version → Prop} (h : i.IsBoundedBy P) :
    ∀ c ∈ i.resolved, P c.2 := by
  intro c hc
  cases hp : i.point? with
  | some p =>
    obtain ⟨q, rfl, _⟩ := point?_eq_some_iff.mp hp
    obtain rfl : c = (.equal, p) := by simpa [resolved, hp] using hc
    exact h.lower p rfl
  | none =>
    simp only [resolved, hp, List.mem_append, Option.mem_toList, Option.map_eq_some_iff] at hc
    rcases hc with ⟨v, hv, rfl⟩ | ⟨v, hv, rfl⟩
    · exact h.lower v hv
    · exact h.upper v hv

theorem admitted_resolved_of_point (hp : i.point? = some p) :
    Range.admitted i.resolved = [.exact p] := by
  simp [resolved, hp, Range.admitted, Operator.interval?]

/-- Without its upper version the interval is a ray, and likewise without its lower one. -/
theorem admitted_resolved (hp : i.point? = none) : Range.admitted i.resolved =
    (i.lower.version.map fun v => above v i.lower.inclusive).toList ++
      (i.upper.version.map fun v => below v i.upper.inclusive).toList := by
  obtain ⟨⟨_ | min, f⟩, ⟨_ | max, g⟩⟩ := i <;> cases f <;> cases g <;>
    simp [resolved, hp, Range.admitted, Operator.interval?]

theorem admitted_resolved_of_isSingle (h : i.IsSingle) :
    Range.admitted i.resolved = [i.reread] := by
  cases hp : i.point? with
  | some p => rw [admitted_resolved_of_point hp, reread, hp]
  | none =>
    have hsides := h.resolve_left (by simp [hp])
    rw [admitted_resolved hp, reread, hp]
    obtain ⟨⟨_ | min, f⟩, ⟨_ | max, g⟩⟩ := i
    · contradiction
    · rfl
    · rfl
    · contradiction

end Interval

namespace Range

variable {intervals : List Interval} {cs : List (Operator × Version)} {r : Range} {i : Interval}
  {a b v : Version} {f g : Bool} {scheme : String}

/-! ### Intervals from their constraints -/

/-- Two rays that overlap merge into what both of them hold. -/
theorem ofIntervals_rays (h : Interval.isEmpty ⟨⟨some a, f⟩, ⟨some b, g⟩⟩ = false) :
    ofIntervals [.above a f, .below b g] = ⟨[⟨⟨some a, f⟩, ⟨some b, g⟩⟩]⟩ := by
  rw [(ofIntervals_rays_of_meets (meets_of_isEmpty_eq_false h)).1]
  exact ofIntervals_singleton h

/-- The constraints of all intervals of the range. -/
def resolved (r : Range) : List (Operator × Version) := r.intervals.flatMap Interval.resolved

theorem operator_ne_of_mem_resolved {c : Operator × Version} (h : c ∈ r.resolved) :
    c.1 ≠ .notEqual := by
  obtain ⟨i, _, hc⟩ := List.mem_flatMap.mp h
  exact Interval.operator_ne_of_mem_resolved hc

theorem admitted_resolved (h : ∀ i ∈ r.intervals, i.IsSingle) :
    admitted r.resolved = r.intervals.map Interval.reread := by
  rw [resolved, admitted, List.filterMap_flatMap, List.map_eq_flatMap]
  exact List.flatMap_congr fun i hi => Interval.admitted_resolved_of_isSingle (h i hi)

theorem ofConstraints_resolved_singleton (h : i.isEmpty = false) (hu : i.isUnbounded = false) :
    ofConstraints i.resolved = ⟨[i.reread]⟩ := by
  by_cases hs : i.IsSingle
  · have hadmitted := Interval.admitted_resolved_of_isSingle hs
    rw [ofConstraints_eq_ofIntervals (fun c => Interval.operator_ne_of_mem_resolved)
      (by simp [hadmitted]), hadmitted, ofIntervals_singleton (Interval.isEmpty_reread h)]
  · have hp : i.point? = none := Option.eq_none_iff_forall_not_mem.mpr fun p hp =>
      hs (.inl (Option.isSome_of_mem hp))
    have hadmitted := Interval.admitted_resolved hp
    have hreread : i.reread = ⟨i.lower.reread, i.upper.reread⟩ := by rw [Interval.reread, hp]
    obtain ⟨⟨_ | a, f⟩, ⟨_ | b, g⟩⟩ := i
    · contradiction
    · exact absurd (.inr (by simp)) hs
    · exact absurd (.inr (by simp)) hs
    · rw [ofConstraints_eq_ofIntervals (fun c => Interval.operator_ne_of_mem_resolved)
        (by simp [hadmitted]), hadmitted, hreread]
      exact ofIntervals_rays h

/-! ### URIs -/

theorem toUri_eq (hu : r.isUnbounded = false) :
    r.toUri scheme = uriStart ++ scheme ++ "/" ++ listText r.resolved := by
  have hconstraints : r.intervals.flatMap Interval.constraints =
      r.resolved.map Constraint.ofResolved := by
    rw [resolved, List.map_flatMap]
    exact List.flatMap_congr fun i _ => Interval.constraints_eq
  rw [toUri, if_neg (by simp [hu])]
  simp only [hconstraints, listText]

theorem exists_of_isUnbounded (h : r.isUnbounded = true) :
    ∃ i : Interval, i.reread = .unbounded ∧ r.intervals = [i] := by
  obtain ⟨_ | ⟨i, _ | ⟨j, rest⟩⟩⟩ := r
  · cases h
  · obtain ⟨⟨_ | a, f⟩, ⟨_ | b, g⟩⟩ := i
    · exact ⟨_, rfl, rfl⟩
    · cases h
    · cases h
    · cases h
  · cases h

theorem toUri_reread : toUri ⟨r.intervals.map Interval.reread⟩ scheme = r.toUri scheme := by
  have hunbounded : isUnbounded ⟨r.intervals.map Interval.reread⟩ = r.isUnbounded := by
    obtain ⟨_ | ⟨i, _ | ⟨j, rest⟩⟩⟩ := r
    · rfl
    · exact Interval.isUnbounded_reread
    · rfl
  have hconstraints : (r.intervals.map Interval.reread).flatMap Interval.constraints =
      r.intervals.flatMap Interval.constraints := by
    rw [List.flatMap_map]
    exact List.flatMap_congr fun i _ => Interval.constraints_reread
  simp only [toUri, hunbounded, hconstraints]

/-- What stands after the scheme is read as a list of constraints, if it starts with one. -/
theorem parseUri_eq {text : String} {body : List Char} (hscheme : scheme ≠ "")
    (hslash : '/' ∉ scheme.toList)
    (htext : text.toList = uriStart.toList ++ scheme.toList ++ '/' :: body) :
    parseUri text = if body.isEmpty then pure empty else if body == ['*'] then pure unbounded
      else ofConstraintList body := by
  have hne : (text == "*") = false := by
    refine beq_eq_false_iff_ne.mpr ?_
    rintro rfl
    cases htext
  have hdrop : Text.dropStart? uriStart.toList text.toList =
      some (scheme.toList ++ '/' :: body) := by
    rw [Text.dropStart?_eq_some_iff, htext, List.append_assoc]
  obtain ⟨c, rest, hc⟩ := List.exists_cons_of_ne_nil (l := scheme.toList) (by simpa using hscheme)
  rw [parseUri, if_neg (by simp [hne]), hdrop, Option.map_some, Text.cutAt_append hslash, hc]

/-- A list of constraints is not taken for an empty one, nor for the one of all versions. -/
theorem listText_ne (h : ∀ c ∈ cs, c.2.IsListable) (hne : cs ≠ []) :
    (listText cs).toList ≠ [] ∧ (listText cs).toList ≠ ['*'] := by
  have hsplit := splitOn_listText h hne
  obtain ⟨⟨op, v⟩, rest, rfl⟩ := List.exists_cons_of_ne_nil hne
  rw [List.map_cons, Constraint.render_ofResolved] at hsplit
  constructor
  · intro htext
    rw [htext, List.splitOn_nil] at hsplit
    have hhead := (List.cons.inj hsplit).1
    cases op <;> cases hhead
  · intro htext
    have hsplit' : ['*'].splitOn '|' = [['*']] := by decide
    rw [htext, hsplit'] at hsplit
    have hhead := (List.cons.inj hsplit).1
    cases op <;> cases hhead

theorem run_parseUri_list (hscheme : scheme ≠ "") (hslash : '/' ∉ scheme.toList)
    (h : ∀ c ∈ cs, c.2.IsListable) (hne : cs ≠ []) :
    (parseUri (uriStart ++ scheme ++ "/" ++ listText cs)).run = .ok (ofConstraints cs) := by
  obtain ⟨hnil, hall⟩ := listText_ne h hne
  have htext : (uriStart ++ scheme ++ "/" ++ listText cs).toList =
      uriStart.toList ++ scheme.toList ++ '/' :: (listText cs).toList := by
    simp
  rw [parseUri_eq hscheme hslash htext, if_neg (by simpa using hnil), if_neg (by simpa using hall),
    run_ofConstraintList_listText h hne]

/-- The URI of a range of listable versions is read as the range of what its constraints show, if it
has one interval or its intervals have one constraint each. -/
theorem run_parseUri_toUri (hscheme : scheme ≠ "") (hslash : '/' ∉ scheme.toList)
    (h : r.BoundedBy Version.IsListable)
    (hsingle : r.intervals.length ≤ 1 ∨ ∀ i ∈ r.intervals, i.IsSingle) :
    (parseUri (r.toUri scheme)).run = .ok (ofIntervals (r.intervals.map Interval.reread)) := by
  cases hu : r.isUnbounded with
  | true =>
    obtain ⟨i, hi, hr⟩ := exists_of_isUnbounded hu
    rw [toUri, if_pos hu, hr, List.map_singleton, hi]
    rfl
  | false =>
    have hlistable : ∀ c ∈ r.resolved, c.2.IsListable := by
      intro c hc
      obtain ⟨i, hi, hc⟩ := List.mem_flatMap.mp hc
      exact Interval.forall_mem_resolved (h i hi) c hc
    rw [toUri_eq hu]
    obtain ⟨_ | ⟨i, _ | ⟨j, rest⟩⟩⟩ := r
    · have htext : (uriStart ++ scheme ++ "/" ++ listText (resolved ⟨[]⟩)).toList =
          uriStart.toList ++ scheme.toList ++ '/' :: [] := by
        simp [listText, resolved]
      rw [parseUri_eq hscheme hslash htext]
      rfl
    · have hi := (h i (.head [])).nonempty
      have hresolved : resolved ⟨[i]⟩ = i.resolved := List.flatMap_singleton _ _
      have hne : resolved ⟨[i]⟩ ≠ [] := hresolved ▸ Interval.resolved_ne_nil hu
      rw [run_parseUri_list hscheme hslash hlistable hne, hresolved,
        ofConstraints_resolved_singleton hi hu, List.map_singleton,
        ofIntervals_singleton (Interval.isEmpty_reread hi)]
    · -- Several intervals have one constraint each, from which it is made again.
      have hall := hsingle.resolve_left (by simp)
      have hadmitted := admitted_resolved hall
      have hne : resolved ⟨i :: j :: rest⟩ ≠ [] := by
        intro hnil
        rw [hnil] at hadmitted
        cases hadmitted
      rw [run_parseUri_list hscheme hslash hlistable hne,
        ofConstraints_eq_ofIntervals (fun c => operator_ne_of_mem_resolved) (by simp [hadmitted]),
        hadmitted]

/-! ### Round trips -/

theorem contains_map_reread (h : ∀ i ∈ r.intervals, i.reread.contains v = i.contains v) :
    contains ⟨r.intervals.map Interval.reread⟩ v = r.contains v := by
  rw [Bool.eq_iff_iff, contains_iff, contains_iff]
  constructor
  · rintro ⟨_, hmem, hv⟩
    obtain ⟨i, hi, rfl⟩ := List.mem_map.mp hmem
    exact ⟨i, hi, h i hi ▸ hv⟩
  · rintro ⟨i, hi, hv⟩
    exact ⟨i.reread, List.mem_map_of_mem hi, (h i hi).symm ▸ hv⟩

theorem isSettled_of_ascends (h : Ascends r.intervals)
    (hadj : r.intervals.Pairwise fun a b => a.isAdjacent b = false) : r.IsSettled := by
  refine ⟨h.proper, (h.pairwise.and hadj).imp_of_mem fun {a b} ha hb ⟨hle, hab⟩ => ?_⟩
  refine lt_of_le_of_ne hle fun heq => ?_
  rw [(Interval.isAdjacent_iff (h.proper a ha) (h.proper b hb)).mpr (.inl heq)] at hab
  contradiction

theorem IsSettled.reread (h : r.IsSettled) :
    IsSettled ⟨r.intervals.map Interval.reread⟩ := by
  constructor
  · intro i hi
    obtain ⟨j, hj, rfl⟩ := List.mem_map.mp hi
    exact (h.proper j hj).reread.1
  · refine List.pairwise_map.mpr (h.pairwise.imp_of_mem fun {a b} ha hb hlt => ?_)
    rw [(h.proper a ha).reread.2.2, (h.proper b hb).reread.2.1]
    exact hlt

/-- A range is made of constraints between bars, unless it is one of the two that have a name. -/
theorem yields_parseUri {P : Version → Prop} (uri : String) : (parseUri uri).Yields P fun r =>
    r.BoundedBy (fun v => P v ∧ '|' ∉ v.text.toList) ∧
      ((∀ v, P v → v.IsOrdered) → Ascends r.intervals) := by
  have hempty : Ascends empty.intervals := ⟨List.forall_mem_nil _, List.Pairwise.nil⟩
  have hunbounded : Ascends unbounded.intervals :=
    ascends_ofIntervals (List.forall_mem_singleton.mpr (by decide +kernel))
  unfold parseUri
  split
  · exact .pure ⟨boundedBy_unbounded, fun _ => hunbounded⟩
  · split
    next c rest body _ =>
      split
      · exact .pure ⟨boundedBy_empty, fun _ => hempty⟩
      · split
        · exact .pure ⟨boundedBy_unbounded, fun _ => hunbounded⟩
        · intro hfound r hr
          obtain ⟨cs, hcs, rfl⟩ := yields_ofConstraintList body hfound r hr
          exact ⟨boundedBy_ofConstraints hcs, fun ho =>
            ascends_ofConstraints fun c hc => ho _ (hcs c hc).1⟩
    next => exact .fail _

/-- A range that was read from a URI of ordered versions, in which no two intervals are adjacent,
comes back from its own URI under any scheme, if it has one interval or its intervals have one
constraint each. -/
theorem exists_parseUri_toUri {uri : String} (hr : (parseUri uri).run = .ok r)
    (ho : ∀ v ∈ (parseUri uri).found, v.IsOrdered)
    (hadj : r.intervals.Pairwise fun a b => a.isAdjacent b = false)
    (hsingle : r.intervals.length ≤ 1 ∨ ∀ i ∈ r.intervals, i.IsSingle)
    (hscheme : scheme ≠ "") (hslash : '/' ∉ scheme.toList) :
    ∃ r', (parseUri (r.toUri scheme)).run = .ok r' ∧
      List.Forall₂ Interval.Agrees r'.intervals r.intervals ∧
      (∀ v : Version, v.IsOrdered → r'.contains v = r.contains v) ∧
      r'.toUri scheme = r.toUri scheme := by
  let P (v : Version) := v.IsOrdered ∧ v.IsShown
  have hfound : ∀ v ∈ (parseUri uri).found, P v := by
    intro v hv
    obtain ⟨text, htext⟩ := Lookup.exists_parse_of_mem_found hv
    exact ⟨ho v hv, Version.isShown_of_parse htext⟩
  obtain ⟨hbounded, hascends⟩ := yields_parseUri uri hfound r hr
  have hlistable : r.BoundedBy Version.IsListable :=
    hbounded.mono fun v ⟨⟨_, hshown⟩, hbar⟩ => ⟨hshown, hbar⟩
  have hsettled := isSettled_of_ascends (hascends fun v hv => hv.1) hadj
  have hrun := run_parseUri_toUri hscheme hslash hlistable hsingle
  rw [hsettled.reread.isFixpoint.renormalize] at hrun
  refine ⟨_, hrun, ?agrees, ?contains, toUri_reread⟩
  case agrees =>
    rw [List.forall₂_map_left_iff, List.forall₂_same]
    exact fun i _ => Interval.agrees_reread
  case contains =>
    intro v hv
    refine contains_map_reread fun i hi => ?_
    refine Interval.contains_reread (hlistable i hi).nonempty fun p _ q _ hs => ?_
    exact Version.compare_congr_of_same hs hv

/-- Two rays with a single version between them come back, though a prerelease came first. -/
theorem exists_parseUri_toUri_rays :
    let v (major : Int) : Version := .ofComponents { major }
    let rc : Version := .ofComponents { major := 1, prerelease := some "rc.1" }
    let r := ofIntervals [.below rc false, .exact (v 2), .above (v 3) true]
    (parseUri "vers:npm/>=3|=2|<1-rc.1").run = .ok r ∧
      ∃ r', (parseUri (r.toUri "gem")).run = .ok r' ∧ r'.contains rc = false := by
  intro v rc r
  have hr : (parseUri "vers:npm/>=3|=2|<1-rc.1").run = .ok r := by decide +kernel
  obtain ⟨r', hr', _, hcontains, _⟩ := exists_parseUri_toUri hr (by decide +kernel)
    (by decide +kernel) (.inr (by decide +kernel)) (by decide : "gem" ≠ "") (by decide)
  refine ⟨hr, r', hr', ?_⟩
  rw [hcontains rc (by decide +kernel)]
  decide +kernel

/-- A single version with two spellings keeps the first one.  `1.0.0-0x`, which is not ordered,
comes after `1.0.0-01` and before `1.0.0-1`, so that only the two together hold it. -/
theorem exists_contains_reread_ne :
    let v (identifier : String) : Version :=
      .ofComponents { major := 1, minor := some 0, patch := some 0, prerelease := some identifier }
    let uri := "vers:npm/>=1.0.0-01|<=1.0.0-1"
    let r : Range := ⟨[⟨{ version := v "01" }, { version := v "1" }⟩]⟩
    (parseUri uri).run = .ok r ∧ (∀ v ∈ (parseUri uri).found, v.IsOrdered) ∧
      (parseUri (r.toUri "npm")).run = .ok (exact (v "01")) ∧
      r.contains (v "0x") = true ∧ (exact (v "01")).contains (v "0x") = false := by
  decide +kernel

end Range

end Versioning
