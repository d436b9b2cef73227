import Versioning.Proofs.Native.Conversion
import Versioning.Proofs.Range.Legible

/-! Ranges with one URI.  The URI of a range that was read, in whatever way, determines its bounds
but for the flags of those without a version.  These are the same for all grammars, apart from that
of brackets: a group says which of its sides are inclusive also where it has no version. -/

namespace Versioning

namespace Bound

variable {a b : Bound} {side : Side}

/-- A bound without a version has the flag that it has where none is given. -/
def IsPlain (b : Bound) : Prop := b.version = none → b.inclusive = true

theorem IsPlain.tighter (ha : a.IsPlain) (hb : b.IsPlain) : (a.tighter side b).IsPlain := by
  obtain ⟨_ | u, f⟩ := a <;> obtain ⟨_ | v, g⟩ := b
  · exact ha
  · exact hb
  · exact ha
  · intro h
    rcases version_tighter side ⟨some u, f⟩ ⟨some v, g⟩ with hv | hv <;> cases hv.symm.trans h

theorem IsPlain.looser (ha : a.IsPlain) (hb : b.IsPlain) : (a.looser side b).IsPlain := by
  obtain ⟨_ | u, f⟩ := a <;> obtain ⟨_ | v, g⟩ := b
  · exact hb
  · exact hb
  · exact ha
  · intro h
    rcases version_looser side ⟨some u, f⟩ ⟨some v, g⟩ with hv | hv <;> cases hv.symm.trans h

theorem isPlain_of_isSome (h : b.version.isSome = true) : b.IsPlain := fun hb => by
  rw [hb] at h
  cases h

theorem IsPlain.sharesFlag (ha : a.IsPlain) (hb : b.IsPlain) (h : a.Agrees b) :
    a.SharesFlag b := by
  obtain ⟨_ | u, f⟩ := a <;> obtain ⟨_ | v, g⟩ := b
  · exact fun _ => (ha rfl).trans (hb rfl).symm
  · cases h
  · exact fun hnone => by cases hnone
  · exact fun hnone => by cases hnone

end Bound

namespace Interval

/-- Both bounds have a version or the flag that a bound has where none is given. -/
structure IsPlain (i : Interval) : Prop where
  lower : i.lower.IsPlain
  upper : i.upper.IsPlain

variable {a b c g i : Interval} {v : Version}

theorem isPlain_ends (u v : Version) (f g : Bool) : IsPlain ⟨⟨u, f⟩, ⟨v, g⟩⟩ :=
  ⟨Bound.isPlain_of_isSome rfl, Bound.isPlain_of_isSome rfl⟩

theorem isPlain_empty : empty.IsPlain := isPlain_ends ..

theorem isPlain_of_interval? {op : Operator} (ha : a ∈ op.interval? v) : a.IsPlain := by
  cases op <;> cases ha <;> constructor <;> simp [Bound.IsPlain, exact, above, below]

theorem IsPlain.of_union (ha : a.IsPlain) (hb : b.IsPlain) (h : a.union b = some c) :
    c.IsPlain := by
  unfold union at h
  split at h
  · exact Option.some.inj h ▸ hb
  · split at h
    · exact Option.some.inj h ▸ ha
    · split at h
      · exact Option.some.inj h ▸ ⟨ha.lower.looser hb.lower, ha.upper.looser hb.upper⟩
      · cases h

theorem IsPlain.inter (ha : a.IsPlain) (hb : b.IsPlain) : (a.inter b).IsPlain := by
  unfold Interval.inter
  split
  · exact isPlain_empty
  · exact ⟨ha.lower.tighter hb.lower, ha.upper.tighter hb.upper⟩

theorem IsPlain.without (h : i.IsPlain) (ha : a ∈ i.without v) : a.IsPlain := by
  unfold Interval.without at ha
  split at ha
  · rcases List.mem_pair.mp ha with rfl | rfl
    · exact ⟨h.lower, Bound.isPlain_of_isSome rfl⟩
    · exact ⟨Bound.isPlain_of_isSome rfl, h.upper⟩
  · exact List.mem_singleton.mp ha ▸ h

theorem forall₂_sharesFlags {is js : List Interval} (h : List.Forall₂ Agrees is js)
    (hi : ∀ i ∈ is, i.IsPlain) (hj : ∀ j ∈ js, j.IsPlain) : List.Forall₂ SharesFlags is js := by
  induction h with
  | nil => exact .nil
  | cons hij _ ih =>
    obtain ⟨hi, his⟩ := List.forall_mem_cons.mp hi
    obtain ⟨hj, hjs⟩ := List.forall_mem_cons.mp hj
    exact .cons ⟨hi.lower.sharesFlag hj.lower hij.1, hi.upper.sharesFlag hj.upper hij.2⟩
      (ih his hjs)

theorem isPlain_before? (h : i.before? = some g) : g.IsPlain := by
  obtain ⟨min, hmin, rfl⟩ := Option.map_eq_some_iff.mp h
  exact ⟨fun _ => rfl, Bound.isPlain_of_isSome (Option.isSome_of_eq_some hmin)⟩

theorem isPlain_after? (h : i.after? = some g) : g.IsPlain := by
  obtain ⟨max, hmax, rfl⟩ := Option.map_eq_some_iff.mp h
  exact ⟨Bound.isPlain_of_isSome (Option.isSome_of_eq_some hmax), fun _ => rfl⟩

theorem isPlain_between? (h : a.between? b = some g) : g.IsPlain := by
  unfold between? at h
  split at h
  next hsome =>
    obtain ⟨hupper, hlower⟩ := Bool.and_eq_true_iff.mp hsome
    exact Option.some.inj h ▸ ⟨Bound.isPlain_of_isSome hupper, Bound.isPlain_of_isSome hlower⟩
  next => cases h

end Interval

namespace Range

variable {r s : Range} {intervals : List Interval} {v : Version}

/-- No bound without a version has a flag of its own. -/
def IsPlain (r : Range) : Prop := ∀ i ∈ r.intervals, i.IsPlain

theorem isPlain_ofIntervals (h : ∀ i ∈ intervals, i.IsPlain) : (ofIntervals intervals).IsPlain :=
  forall_ofIntervals (fun _ _ _ ha hb hc _ => ha.of_union hb hc) fun i hi _ => h i hi

theorem isPlain_ofInterval {i : Interval} (h : i.IsPlain) : (ofInterval i).IsPlain :=
  isPlain_ofIntervals (List.forall_mem_singleton.mpr h)

theorem isPlain_empty : empty.IsPlain := List.forall_mem_nil _

theorem isPlain_unbounded : unbounded.IsPlain :=
  isPlain_ofInterval ⟨fun _ => rfl, fun _ => rfl⟩

theorem IsPlain.exclude (h : r.IsPlain) (v : Version) : (r.exclude v).IsPlain := by
  unfold Range.exclude
  split
  · refine isPlain_ofIntervals fun i hi => ?_
    obtain ⟨a, ha, hi⟩ := List.mem_flatMap.mp hi
    exact (h a ha).without hi
  · exact h

theorem isPlain_ofConstraints (cs : List (Operator × Version)) : (ofConstraints cs).IsPlain := by
  refine ofConstraints_induction ?_ isPlain_empty isPlain_unbounded fun r hr v _ => hr.exclude v
  refine isPlain_ofIntervals fun i hi => ?_
  obtain ⟨c, _, hi⟩ := List.mem_filterMap.mp hi
  exact Interval.isPlain_of_interval? hi

theorem isPlain_of_mem_gapsAfter {g : Interval} (hg : some g ∈ gapsAfter intervals) :
    g.IsPlain := by
  fun_induction gapsAfter intervals with
  | case1 => cases hg
  | case2 last => exact Interval.isPlain_after? (List.mem_singleton.mp hg).symm
  | case3 a b rest ih =>
    rcases List.mem_cons.mp hg with hg | hg
    · exact Interval.isPlain_between? hg.symm
    · exact ih hg

theorem isPlain_compl (r : Range) : r.compl.IsPlain := by
  obtain ⟨_ | ⟨first, rest⟩⟩ := r
  · exact isPlain_unbounded
  · refine isPlain_ofIntervals fun g hg => ?_
    have hg : some g = first.before? ∨ some g ∈ gapsAfter (first :: rest) := by simpa using hg
    rcases hg with hg | hg
    · exact Interval.isPlain_before? hg.symm
    · exact isPlain_of_mem_gapsAfter hg

theorem closed_isPlain : Closed (fun _ => True) IsPlain where
  empty := isPlain_empty
  unbounded := isPlain_unbounded
  constraints cs _ := isPlain_ofConstraints cs
  between _ _ _ _ := isPlain_ofInterval (Interval.isPlain_ends ..)
  series _ _ _ := isPlain_ofInterval (Interval.isPlain_ends ..)
  release _ _ := trivial
  union _ _ hr hs := isPlain_ofIntervals fun i hi => (List.mem_append.mp hi).elim (hr i) (hs i)
  inter _ _ hr hs := by
    refine isPlain_ofIntervals fun i hi => ?_
    obtain ⟨a, ha, hi⟩ := List.mem_flatMap.mp hi
    obtain ⟨b, hb, rfl⟩ := List.mem_map.mp hi
    exact (hr a ha).inter (hs b hb)
  compl r _ := isPlain_compl r

theorem closed_isLegible : Closed (fun _ => True) IsLegible where
  empty := isLegible_empty
  unbounded := isLegible_ofIntervals _
  constraints cs _ := isLegible_ofConstraints cs
  between _ _ _ _ := isLegible_ofIntervals _
  series _ _ _ := isLegible_ofIntervals _
  release _ _ := trivial
  union _ _ _ _ := isLegible_ofIntervals _
  inter _ _ _ _ := isLegible_ofIntervals _
  compl r _ := isLegible_compl r

/-! ### Ranges that were read -/

section Read

variable {P : Version → Prop} {Q : Range → Prop} {text text' name : String}
  {scheme scheme' : Option String}

theorem Closed.yields_parseUri (h : Closed P Q) (uri : String) : (parseUri uri).Yields P Q := by
  unfold parseUri
  split
  · exact .pure h.unbounded
  · split
    · split
      · exact .pure h.empty
      · split
        · exact .pure h.unbounded
        · exact h.yields_ofPieces _
    · exact .fail _

theorem Closed.yields_parse [Specifier.Reader] (h : Closed P Q)
    (hgroups : (∃ name ∈ scheme, Scheme.IsBracketed name) → Bracket.HoldsOfGroups P Q)
    (text : String) : (parse text scheme).Yields P Q := by
  cases scheme with
  | none => exact h.yields_parseUri text
  | some name => exact h.yields_parseNative (fun hname => hgroups ⟨name, rfl, hname⟩) text

theorem boundedBy_isShown_of_parse [Specifier.Reader] (h : (parse text scheme).run = .ok r) :
    r.BoundedBy Version.IsShown := by
  refine (closed_boundedBy seriesClosed_isShown).yields_parse
    (fun _ _ hl hu => boundedBy_ofInterval hl hu) text (fun v hv => ?_) r h
  obtain ⟨text, htext⟩ := Lookup.exists_parse_of_mem_found hv
  exact Version.isShown_of_parse htext

theorem isLegible_of_parse [Specifier.Reader] (h : (parse text scheme).run = .ok r) :
    r.IsLegible :=
  closed_isLegible.yields_parse (fun _ _ _ _ => isLegible_ofIntervals _) text
    (fun _ _ => trivial) r h

theorem isPlain_of_parse [Specifier.Reader]
    (hscheme : ∀ name ∈ scheme, ¬Scheme.IsBracketed name)
    (h : (parse text scheme).run = .ok r) : r.IsPlain :=
  closed_isPlain.yields_parse (fun ⟨name, hname, hb⟩ => absurd hb (hscheme name hname)) text
    (fun _ _ => trivial) r h

/-- No bound is spelled with a bar. -/
def IsBarless (r : Range) : Prop := ∀ i ∈ r.intervals,
  (∀ v ∈ i.lower.version, '|' ∉ v.text.toList) ∧ ∀ v ∈ i.upper.version, '|' ∉ v.text.toList

instance (r : Range) : Decidable r.IsBarless :=
  inferInstanceAs (Decidable (∀ i ∈ r.intervals,
    (∀ v ∈ i.lower.version, '|' ∉ v.text.toList) ∧ ∀ v ∈ i.upper.version, '|' ∉ v.text.toList))

theorem boundedBy_isListable (h : r.BoundedBy Version.IsShown) (hbar : r.IsBarless) :
    r.BoundedBy Version.IsListable := fun i hi =>
  ⟨(h i hi).nonempty, fun v hv => ⟨(h i hi).lower v hv, (hbar i hi).1 v hv⟩,
    fun v hv => ⟨(h i hi).upper v hv, (hbar i hi).2 v hv⟩⟩

/-- Two ranges that were read, each as a URI or in some ecosystem, and that have the same URI agree
in all bounds and hold the same ordered versions.  They are equal just if the flags of their missing
bounds are, and so they are equal if neither was read in brackets. -/
theorem same_iff_of_toUri_eq [Specifier.Reader] (hr : (parse text scheme).run = .ok r)
    (hs : (parse text' scheme').run = .ok s) (hrbar : r.IsBarless) (hsbar : s.IsBarless)
    (h : r.toUri name = s.toUri name) :
    List.Forall₂ Interval.Agrees r.intervals s.intervals ∧
      (∀ v : Version, v.IsOrdered → r.contains v = s.contains v) ∧
      (r.same s = true ↔ List.Forall₂ Interval.SharesFlags r.intervals s.intervals) ∧
      ((∀ name ∈ scheme, ¬Scheme.IsBracketed name) →
        (∀ name ∈ scheme', ¬Scheme.IsBracketed name) → r.same s = true) := by
  have hrshown := boundedBy_isShown_of_parse hr
  have hsshown := boundedBy_isShown_of_parse hs
  have hagrees := agrees_of_toUri_eq (isLegible_of_parse hr) (isLegible_of_parse hs)
    (boundedBy_isListable hrshown hrbar) (boundedBy_isListable hsshown hsbar) h
  have hsame : r.same s = true ↔
      List.Forall₂ Interval.SharesFlags r.intervals s.intervals := by
    rw [same_iff]
    refine ⟨fun hsame => hsame.imp fun _ _ hij => (Interval.same_iff.mp hij).2, fun hflags => ?_⟩
    exact hagrees.mp (fun _ _ hij hf => Interval.same_iff.mpr ⟨hij, hf⟩) hflags
  refine ⟨hagrees, fun v hv => ?_, hsame, fun hscheme hscheme' => ?_⟩
  · exact contains_eq_of_agrees hagrees (fun i hi => (hrshown i hi).nonempty)
      (fun i hi => (hsshown i hi).nonempty)
      fun p _ => Interval.isIndifferent_of_isOrdered hv p.1 p.2
  · exact hsame.mpr (Interval.forall₂_sharesFlags hagrees (isPlain_of_parse hscheme hr)
      (isPlain_of_parse hscheme' hs))

/-- A single version with two spellings and a ray, from npm and from a URI. -/
theorem same_iff_of_toUri_eq_spellings :
    let v (prerelease : String) : Version :=
      .ofComponents { major := 1, minor := some 0, patch := some 0, prerelease := some prerelease }
    let ray : Interval := .above (.ofComponents { major := 2 }) false
    let r : Range := ⟨[⟨{ version := v "rc.01" }, { version := v "rc.1" }⟩, ray]⟩
    let s : Range := ⟨[.exact (v "rc.01"), ray]⟩
    (parse "1.0.0-rc.01 - 1.0.0-rc.1 || >2" (some "npm")).run = .ok r ∧
      (parse "vers:gem/>2|=1.0.0-rc.01" none).run = .ok s ∧ r ≠ s ∧ r.same s = true := by
  intro v ray r s
  have hr : (parse "1.0.0-rc.01 - 1.0.0-rc.1 || >2" (some "npm")).run = .ok r := by decide +kernel
  have hs : (parse "vers:gem/>2|=1.0.0-rc.01" none).run = .ok s := by decide +kernel
  have huri : r.toUri "npm" = s.toUri "npm" := by decide +kernel
  refine ⟨hr, hs, by decide +kernel, ?_⟩
  exact (same_iff_of_toUri_eq hr hs (by decide +kernel) (by decide +kernel) huri).2.2.2
    (by decide +kernel) (by decide +kernel)

/-- In brackets a missing bound is not inclusive, and the range is not equal to the one that the
same ecosystem reads from the version alone, though both have one URI. -/
theorem exists_not_same_of_toUri_eq :
    let v : Version := .ofComponents { major := 1, minor := some 0 }
    let r : Range := ⟨[⟨{ version := v }, { inclusive := false }⟩]⟩
    (parse "[1.0,)" (some "maven")).run = .ok r ∧
      (parse "1.0" (some "maven")).run = .ok (above v true) ∧ r.IsBarless ∧
      (above v true).IsBarless ∧ r.toUri "maven" = (above v true).toUri "maven" ∧
      r.same (above v true) = false := by
  decide +kernel

end Read

end Range

end Versioning
