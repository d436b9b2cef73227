import Mathlib.Data.List.SplitBy
import Versioning.Proofs.Range.Equality

/-! Ranges whose intervals can be told from the list of their constraints.  Intervals without a
lower bound are sorted to the front and overlap each other, and an unbounded one overlaps
everything; so every range of the algebra has at most one interval without a lower bound, its first,
and an unbounded one only alone.  Then an upper bound in the list goes with the lower bound in front
of it, and the list determines the intervals. -/

namespace Versioning

namespace Interval

variable {a b c i j : Interval}

theorem isEmpty_of_lower_eq_none (h : i.lower.version = none) : i.isEmpty = false := by
  simp [isEmpty, h]

theorem lower_tighter_eq_none (ha : a.lower.version = none) (hb : b.lower.version = none) :
    (a.lower.tighter .lower b.lower).version = none := by
  rcases Bound.version_tighter .lower a.lower b.lower with h | h
  · exact h.trans ha
  · exact h.trans hb

theorem isSome_lower_of_union (ha : a.lower.version.isSome = true)
    (hb : b.lower.version.isSome = true) (h : a.union b = some c) :
    c.lower.version.isSome = true := by
  unfold union at h
  split at h
  · exact Option.some.inj h ▸ hb
  · split at h
    · exact Option.some.inj h ▸ ha
    · split at h
      · obtain rfl := Option.some.inj h
        rcases Bound.version_looser .lower a.lower b.lower with hv | hv
        · exact (congrArg Option.isSome hv).trans ha
        · exact (congrArg Option.isSome hv).trans hb
      · cases h

theorem union_ne_none_of_overlaps (h : a.overlaps b = true) : a.union b ≠ none := by
  unfold union
  split
  · exact Option.some_ne_none b
  · split
    · exact Option.some_ne_none a
    · rw [if_pos (by rw [h, Bool.true_or])]
      exact Option.some_ne_none _

/-- Two intervals without a lower bound overlap. -/
theorem union_ne_none_of_lower_eq_none (ha : a.lower.version = none)
    (hb : b.lower.version = none) : a.union b ≠ none := by
  refine union_ne_none_of_overlaps ?_
  have hinter : (a.inter b).isEmpty = false := by
    rw [inter, if_neg (by simp [isEmpty_of_lower_eq_none, ha, hb])]
    exact isEmpty_of_lower_eq_none (lower_tighter_eq_none ha hb)
  rw [overlaps, isEmpty_of_lower_eq_none ha, isEmpty_of_lower_eq_none hb, hinter]
  rfl

/-- An unbounded interval overlaps every interval that holds something. -/
theorem union_ne_none_of_isUnbounded (ha : a.isUnbounded = true) (hb : b.isEmpty = false) :
    a.union b ≠ none := by
  refine union_ne_none_of_overlaps ?_
  obtain ⟨⟨_ | _, f⟩, ⟨_ | _, g⟩⟩ := a
  · have hinter : (inter ⟨⟨none, f⟩, ⟨none, g⟩⟩ b).isEmpty = false := by
      rw [inter, if_neg (by simp [hb, isEmpty_of_lower_eq_none])]
      obtain ⟨⟨_ | min, f'⟩, ⟨_ | max, g'⟩⟩ := b
      · rfl
      · rfl
      · rfl
      · exact hb
    rw [overlaps, isEmpty_of_lower_eq_none rfl, hb, hinter]
    rfl
  all_goals cases ha

end Interval

/-- What comes in front has a lower bound only if what comes after it has one. -/
def LowerFirst (a b : Interval) : Prop :=
  a.lower.version.isSome = true → b.lower.version.isSome = true

theorem pairwise_lowerFirst_sorted (intervals : List Interval) :
    (stableSort Interval.compare intervals).Pairwise LowerFirst := by
  refine stableSort_pairwise (fun a b c hab hbc ha => hbc (hab ha)) (fun a _ b _ h ha => ?_)
    fun a _ b _ h ha => ?_
  · obtain ⟨u, hu⟩ := Option.isSome_iff_exists.mp ha
    cases hb : b.lower.version with
    | some v => rfl
    | none =>
      have hgt : Interval.compare a b = .gt := by
        rw [Interval.compare, hu, hb]
        rfl
      rw [hgt] at h
      contradiction
  · obtain ⟨u, hu⟩ := Option.isSome_iff_exists.mp ha
    cases hb : b.lower.version with
    | some v => rfl
    | none =>
      have hlt : Interval.compare b a = .lt := by
        rw [Interval.compare, hu, hb]
        rfl
      exact absurd (by rw [hlt]; rfl) h

/-- Neither is unbounded, and the second has a lower bound. -/
def Interval.Precedes (a b : Interval) : Prop :=
  a.isUnbounded = false ∧ b.lower.version.isSome = true

theorem pairwise_precedes_coalesce {current : Option Interval} {rest : List Interval}
    (hrest : ∀ i ∈ rest, i.isEmpty = false)
    (hc : ∀ a ∈ current, ∀ b ∈ rest, LowerFirst a b) (hsorted : rest.Pairwise LowerFirst) :
    (coalesce current rest).Pairwise Interval.Precedes := by
  fun_induction coalesce current rest with
  | case1 current => cases current <;> simp
  | case2 next rest ih =>
    obtain ⟨hnext, hsorted⟩ := List.pairwise_cons.mp hsorted
    exact ih (List.forall_mem_cons.mp hrest).2 (by simpa using hnext) hsorted
  | case3 current next rest hu ih =>
    obtain ⟨hn, hrest⟩ := List.forall_mem_cons.mp hrest
    obtain ⟨hnext, hsorted⟩ := List.pairwise_cons.mp hsorted
    refine List.pairwise_cons.mpr ⟨?_, ih hrest (by simpa using hnext) hsorted⟩
    -- Without a merge the next interval has a lower bound, and so have all after it.
    have hlower : next.lower.version.isSome = true := by
      cases hl : current.lower.version with
      | some v => exact hc current rfl next (.head rest) (by rw [hl]; rfl)
      | none =>
        refine Option.isSome_iff_ne_none.mpr fun hnl => ?_
        exact Interval.union_ne_none_of_lower_eq_none hl hnl hu
    have hbounded : current.isUnbounded = false := Bool.eq_false_iff.mpr fun h =>
      Interval.union_ne_none_of_isUnbounded h hn hu
    have hall : ∀ j ∈ coalesce (some next) rest, j.lower.version.isSome = true :=
      forall_coalesce (fun a b c ha hb h _ => Interval.isSome_lower_of_union ha hb h)
        (by simpa using hlower) fun j hj => hnext j hj hlower
    exact fun j hj => ⟨hbounded, hall j hj⟩
  | case4 current next rest merged hu ih =>
    obtain ⟨hn, hrest⟩ := List.forall_mem_cons.mp hrest
    obtain ⟨hnext, hsorted⟩ := List.pairwise_cons.mp hsorted
    refine ih hrest (fun i hi j hj hl => ?_) hsorted
    obtain ⟨rfl, -⟩ := mem_unless_isEmpty.mp hi
    -- A merged interval has a lower bound only if one of its parts has.
    cases hcl : current.lower.version with
    | some v => exact hc current rfl j (.tail next hj) (by rw [hcl]; rfl)
    | none =>
      cases hnl : next.lower.version with
      | some v => exact hnext j hj (by rw [hnl]; rfl)
      | none =>
        have hmerged := Interval.eq_outer_of_union (Interval.isEmpty_of_lower_eq_none hcl) hn hu
        rw [hmerged, Interval.outer, Bound.looser, hcl] at hl
        simp only [hnl] at hl
        cases hl

namespace Range

variable {r s : Range} {i : Interval}

/-- An unbounded interval stands alone, and only the first interval may lack a lower bound. -/
def IsLegible (r : Range) : Prop := r.intervals.Pairwise Interval.Precedes

theorem isLegible_ofIntervals (intervals : List Interval) : (ofIntervals intervals).IsLegible := by
  refine pairwise_precedes_coalesce (fun i hi => (mem_sorted_iff.mp hi).2) (by simp) ?_
  exact pairwise_lowerFirst_sorted _

theorem isLegible_empty : empty.IsLegible := List.Pairwise.nil

theorem IsLegible.exclude (h : r.IsLegible) (v : Version) : (r.exclude v).IsLegible := by
  unfold Range.exclude
  split
  · exact isLegible_ofIntervals _
  · exact h

theorem isLegible_ofConstraints (cs : List (Operator × Version)) :
    (ofConstraints cs).IsLegible :=
  ofConstraints_induction (isLegible_ofIntervals _) isLegible_empty (isLegible_ofIntervals _)
    fun _ hr v _ => hr.exclude v

theorem isLegible_compl (r : Range) : r.compl.IsLegible := by
  unfold compl
  split
  · exact isLegible_ofIntervals _
  · exact isLegible_ofIntervals _

end Range

/-! ### Intervals from the list of their constraints -/

/-- Whether the constraint shows an upper bound. -/
def isUpper (c : Operator × Version) : Bool := c.1 = .less || c.1 = .lessEqual

theorem Bound.agrees_of_map_eq {a b : Bound} (op : Bool → Operator)
    (hop : ∀ f g, op f = op g → f = g)
    (h : a.version.map (op a.inclusive, ·) = b.version.map (op b.inclusive, ·)) : a.Agrees b := by
  obtain ⟨_ | u, f⟩ := a <;> obtain ⟨_ | v, g⟩ := b
  · trivial
  · cases h
  · cases h
  · obtain ⟨hf, rfl⟩ := Prod.mk.inj (Option.some.inj h)
    exact ⟨Version.same_refl u, hop f g hf⟩

namespace Interval

variable {i j : Interval} {p : Version}

theorem point?_eq_some_iff_mem_resolved : i.point? = some p ↔ (.equal, p) ∈ i.resolved := by
  cases hp : i.point? with
  | some q => simp [resolved, hp, eq_comm]
  | none =>
    cases hf : i.lower.inclusive <;> cases hg : i.upper.inclusive <;> simp [resolved, hp, hf, hg]

theorem head?_filter_resolved (hp : i.point? = none) :
    (i.resolved.filter (!isUpper ·)).head? =
        i.lower.version.map (if i.lower.inclusive then Operator.greaterEqual else .greater, ·) ∧
      (i.resolved.filter isUpper).head? =
        i.upper.version.map (if i.upper.inclusive then Operator.lessEqual else .less, ·) := by
  obtain ⟨⟨_ | min, f⟩, ⟨_ | max, g⟩⟩ := i <;> cases f <;> cases g <;>
    simp [resolved, hp, isUpper]

/-- Apart from the flag of a missing bound, only the second spelling of a single version is lost. -/
theorem agrees_of_resolved_eq (h : i.resolved = j.resolved) : i.Agrees j := by
  have hpoint : i.point? = j.point? := by
    refine Option.ext fun p => ?_
    rw [point?_eq_some_iff_mem_resolved, h, point?_eq_some_iff_mem_resolved]
  cases hp : i.point? with
  | some p =>
    obtain ⟨q, rfl, hs⟩ := point?_eq_some_iff.mp hp
    obtain ⟨q', rfl, hs'⟩ := point?_eq_some_iff.mp (hpoint.symm.trans hp)
    exact ⟨⟨Version.same_refl p, rfl⟩, Version.same_trans (Version.same_comm ▸ hs) hs', rfl⟩
  | none =>
    obtain ⟨hlower, hupper⟩ := head?_filter_resolved hp
    obtain ⟨hlower', hupper'⟩ := head?_filter_resolved (hpoint.symm.trans hp)
    rw [h] at hlower hupper
    exact ⟨Bound.agrees_of_map_eq (if · then .greaterEqual else .greater) (by decide)
        (hlower.symm.trans hlower'),
      Bound.agrees_of_map_eq (if · then .lessEqual else .less) (by decide)
        (hupper.symm.trans hupper')⟩

theorem resolved_eq_nil (h : i.isUnbounded = true) : i.resolved = [] := by
  obtain ⟨⟨_ | min, f⟩, ⟨_ | max, g⟩⟩ := i
  · rfl
  all_goals cases h

theorem isChain_resolved : i.resolved.IsChain fun _ c => isUpper c = true := by
  cases hp : i.point? with
  | some p => simp [resolved, hp]
  | none =>
    obtain ⟨⟨_ | min, f⟩, ⟨_ | max, g⟩⟩ := i
    · simp [resolved, hp]
    · simp [resolved, hp]
    · simp [resolved, hp]
    · cases g <;> simp [resolved, hp, isUpper]

theorem isUpper_head_resolved (h : i.lower.version.isSome = true) (hne : i.resolved ≠ []) :
    isUpper (i.resolved.head hne) = false := by
  obtain ⟨min, hmin⟩ := Option.isSome_iff_exists.mp h
  cases hp : i.point? with
  | some p => simp [resolved, hp, isUpper]
  | none => cases hf : i.lower.inclusive <;> simp [resolved, hp, hmin, hf, isUpper]

end Interval

namespace Range

variable {r s : Range}

theorem IsLegible.isUnbounded_eq_false (hr : r.IsLegible) (hu : r.isUnbounded = false) :
    ∀ i ∈ r.intervals, i.isUnbounded = false := by
  obtain ⟨_ | ⟨i, _ | ⟨j, rest⟩⟩⟩ := r
  · exact List.forall_mem_nil _
  · exact List.forall_mem_singleton.mpr hu
  · obtain ⟨hi, hrest⟩ := List.pairwise_cons.mp hr
    refine List.forall_mem_cons.mpr ⟨(hi j (.head rest)).1, fun k hk => ?_⟩
    have hlower := (hi k hk).2
    rw [Interval.isUnbounded, ← Option.not_isSome, hlower]
    rfl

/-- Each constraint that shows an upper bound belongs to the interval of the one before it. -/
theorem IsLegible.splitBy_resolved (hr : r.IsLegible) (hu : r.isUnbounded = false) :
    r.resolved.splitBy (fun _ c => isUpper c) = r.intervals.map Interval.resolved := by
  have hne : ∀ i ∈ r.intervals, i.resolved ≠ [] := fun i hi =>
    Interval.resolved_ne_nil (hr.isUnbounded_eq_false hu i hi)
  rw [resolved, List.flatMap_def]
  refine List.splitBy_flatten (fun hnil => ?_) (fun m hm => ?_) ?_
  · obtain ⟨i, hi, hnil⟩ := List.mem_map.mp hnil
    exact hne i hi hnil
  · obtain ⟨i, hi, rfl⟩ := List.mem_map.mp hm
    exact Interval.isChain_resolved
  · rw [List.isChain_map]
    refine (hr.imp_of_mem fun {a b} ha hb hab => ?_).isChain
    exact ⟨hne a ha, hne b hb, Interval.isUpper_head_resolved hab.2 _⟩

theorem IsLegible.agrees_of_resolved_eq (hr : r.IsLegible) (hs : s.IsLegible)
    (hru : r.isUnbounded = false) (hsu : s.isUnbounded = false) (h : r.resolved = s.resolved) :
    List.Forall₂ Interval.Agrees r.intervals s.intervals := by
  have hmap := hr.splitBy_resolved hru
  rw [h, hs.splitBy_resolved hsu] at hmap
  have hforall : List.Forall₂ (· = ·) (r.intervals.map Interval.resolved)
      (s.intervals.map Interval.resolved) := by
    rw [hmap]
    exact List.forall₂_refl _
  rw [List.forall₂_map_left_iff, List.forall₂_map_right_iff] at hforall
  exact hforall.imp fun _ _ => Interval.agrees_of_resolved_eq

/-! ### Texts -/

theorem eq_of_render_eq {c d : Operator × Version} (hc : c.2.IsShown) (hd : d.2.IsShown)
    (h : (Constraint.ofResolved c).render.toList = (Constraint.ofResolved d).render.toList) :
    c = d := by
  obtain ⟨op, u⟩ := c
  obtain ⟨op', v⟩ := d
  have hread := @Constraint.parse_render op _ hc
  rw [String.toList_injective h, Constraint.parse_render hd] at hread
  obtain ⟨rfl, htext⟩ : op' = op ∧ v.text = u.text := by
    simpa [Constraint.ofResolved] using hread
  rw [Version.IsShown, htext] at hd
  exact Prod.ext rfl (Except.ok.inj (hc.symm.trans hd))

theorem eq_of_map_render_eq {cs ds : List (Operator × Version)} (hcs : ∀ c ∈ cs, c.2.IsShown)
    (hds : ∀ d ∈ ds, d.2.IsShown)
    (h : cs.map (fun c => (Constraint.ofResolved c).render.toList) =
      ds.map fun d => (Constraint.ofResolved d).render.toList) : cs = ds := by
  induction cs generalizing ds with
  | nil => exact (List.map_eq_nil_iff.mp h.symm).symm
  | cons c cs ih =>
    obtain ⟨d, ds, rfl, hcd, hrest⟩ := List.map_eq_cons_iff.mp h.symm
    obtain ⟨hc, hcs⟩ := List.forall_mem_cons.mp hcs
    obtain ⟨hd, hds⟩ := List.forall_mem_cons.mp hds
    rw [eq_of_render_eq hc hd hcd.symm, ih hcs hds hrest.symm]

/-- Different lists of constraints on versions that can stand between bars have different texts. -/
theorem eq_of_listText_eq {cs ds : List (Operator × Version)} (hcs : ∀ c ∈ cs, c.2.IsListable)
    (hds : ∀ d ∈ ds, d.2.IsListable) (h : listText cs = listText ds) : cs = ds := by
  have hnil : listText [] = "" := rfl
  by_cases hc : cs = []
  · subst hc
    by_contra hd
    refine (listText_ne hds (Ne.symm hd)).1 ?_
    rw [← h, hnil]
    rfl
  · have hd : ds ≠ [] := by
      rintro rfl
      refine (listText_ne hcs hc).1 ?_
      rw [h, hnil]
      rfl
    have hsplit := splitOn_listText hcs hc
    rw [h, splitOn_listText hds hd] at hsplit
    exact eq_of_map_render_eq (fun c hc => (hcs c hc).shown) (fun d hd => (hds d hd).shown)
      hsplit.symm

/-- The URI of a range of versions that can stand between bars determines its bounds, but for the
flags of those without a version. -/
theorem agrees_of_toUri_eq {name : String} (hr : r.IsLegible) (hs : s.IsLegible)
    (hrb : r.BoundedBy Version.IsListable) (hsb : s.BoundedBy Version.IsListable)
    (h : r.toUri name = s.toUri name) : List.Forall₂ Interval.Agrees r.intervals s.intervals := by
  have hlistable {t : Range} (ht : t.BoundedBy Version.IsListable) :
      ∀ c ∈ t.resolved, c.2.IsListable := by
    intro c hc
    obtain ⟨i, hi, hc⟩ := List.mem_flatMap.mp hc
    exact Interval.forall_mem_resolved (ht i hi) c hc
  have hstar {t : Range} (ht : t.isUnbounded = false) : "*" ≠ t.toUri name := by
    rw [toUri_eq ht]
    intro h
    have hhead := congrArg (·.toList.head?) h
    simp [uriStart] at hhead
  cases hru : r.isUnbounded with
  | true =>
    have hrstar : r.toUri name = "*" := if_pos hru
    have hsu : s.isUnbounded = true := by
      by_contra hsu
      exact hstar (Bool.eq_false_iff.mpr hsu) (hrstar.symm.trans h)
    obtain ⟨i, hi, hri⟩ := exists_of_isUnbounded hru
    obtain ⟨j, hj, hsj⟩ := exists_of_isUnbounded hsu
    have hnil {k : Interval} (hk : k.reread = .unbounded) : k.resolved = [] :=
      Interval.resolved_eq_nil (by rw [← Interval.isUnbounded_reread, hk]; rfl)
    rw [hri, hsj]
    exact .cons (Interval.agrees_of_resolved_eq ((hnil hi).trans (hnil hj).symm)) .nil
  | false =>
    have hsu : s.isUnbounded = false := by
      refine Bool.eq_false_iff.mpr fun hsu => hstar hru ?_
      rw [h]
      exact (if_pos hsu).symm
    rw [toUri_eq hru, toUri_eq hsu] at h
    have htext : listText r.resolved = listText s.resolved := by
      exact String.toList_injective (by simpa using congrArg String.toList h)
    exact hr.agrees_of_resolved_eq hs hru hsu
      (eq_of_listText_eq (hlistable hrb) (hlistable hsb) htext)

end Range

end Versioning
