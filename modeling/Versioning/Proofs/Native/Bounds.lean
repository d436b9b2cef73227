import Versioning.Native
import Versioning.Proofs.Range.Bounds
import Versioning.Proofs.Range.Spelling

/-! What holds of native ranges.  Every grammar computes its range from versions that it looks up
and from releases that wildcards stand for, by constraints, series, unions, intersections and
complements; so what these keep holds of the range.  In particular its bounds are versions that were
looked up and ends of their series. -/

namespace Versioning

open Lookup

/-- What holds of a version holds of the first version of each series after it, and it holds of the
first release of each minor number. -/
structure Version.SeriesClosed (P : Version → Prop) : Prop where
  increment : ∀ v component, P v → P (v.increment component)
  release : ∀ major minor : Nat, P (.ofRelease ⟨major, minor, 0⟩)

namespace Range

variable {P : Version → Prop} {Q : Range → Prop}

/-- `Q` holds of whatever is made of versions that satisfy `P`, other than the groups between
brackets. -/
structure Closed (P : Version → Prop) (Q : Range → Prop) : Prop where
  empty : Q .empty
  unbounded : Q .unbounded
  constraints : ∀ cs : List (Operator × Version), (∀ c ∈ cs, P c.2) → Q (.ofConstraints cs)
  between : ∀ u v, P u → P v → Q (.ofInterval ⟨{ version := u }, { version := v }⟩)
  series : ∀ v component, P v → Q (.series v component)
  release : ∀ major minor : Nat, P (.ofRelease ⟨major, minor, 0⟩)
  union : ∀ r s, Q r → Q s → Q (r.union s)
  inter : ∀ r s, Q r → Q s → Q (r.inter s)
  compl : ∀ r, Q r → Q r.compl

theorem closed_boundedBy (hP : Version.SeriesClosed P) : Closed P (BoundedBy P) where
  empty := boundedBy_empty
  unbounded := boundedBy_unbounded
  constraints _ h := boundedBy_ofConstraints h
  between _ _ hu hv := boundedBy_ofInterval (by simpa using hu) (by simpa using hv)
  series v component hv := boundedBy_series hv (hP.increment v component hv)
  release := hP.release
  union _ _ hr hs := hr.union hs
  inter _ _ hr hs := hr.inter hs
  compl _ hr := hr.compl

namespace Closed

variable (h : Closed P Q)

include h

theorem foldl_inter {r : Range} {ranges : List Range} (hr : Q r) (hs : ∀ s ∈ ranges, Q s) :
    Q (ranges.foldl .inter r) := by
  induction ranges generalizing r with
  | nil => exact hr
  | cons s ranges ih =>
    obtain ⟨hs, hrest⟩ := List.forall_mem_cons.mp hs
    exact ih (h.inter r s hr hs) hrest

theorem above {v : Version} (hv : P v) : Q (.above v true) :=
  h.constraints [(.greaterEqual, v)] (List.forall_mem_singleton.mpr hv)

theorem yields_build (constraints : List Constraint) : (build constraints).Yields P Q := by
  intro hfound r hr
  obtain ⟨cs, hcs, _, rfl⟩ := Range.yields_build constraints hfound r hr
  exact h.constraints cs hcs

theorem yields_ofPieces (pieces : List (List Char)) : (ofPieces pieces).Yields P Q :=
  (Yields.ofExcept fun _ _ => trivial).bind fun constraints _ => h.yields_build constraints

end Closed

end Range

open Range

variable {P : Version → Prop} {Q : Range → Prop}

namespace Npm

/-- `Q` holds of whatever a comparator makes of a version that satisfies `P`, and of what it makes
of a wildcard. -/
structure Composes (P : Version → Prop) (Q : Range → Prop) : Prop where
  unbounded : Q .unbounded
  series : ∀ v component, P v → Q (.series v component)
  release : ∀ major minor : Nat, P (.ofRelease ⟨major, minor, 0⟩)
  constraint : ∀ op v, P v → Q (.ofConstraints [(op, v)])

namespace Composes

variable (h : Composes P Q)

include h

theorem wildcardRange {text : List Char} {r : Range} (hr : wildcardRange? text = some r) : Q r := by
  simp only [wildcardRange?] at hr
  split at hr
  · cases hr
  · split at hr
    · obtain rfl := Option.some.inj hr
      exact h.unbounded
    next major _ =>
      obtain rfl := Option.some.inj hr
      exact h.series _ _ (h.release (Text.numeral major) 0)
    next major minor _ _ =>
      obtain rfl := Option.some.inj hr
      exact h.series _ _ (h.release (Text.numeral major) (Text.numeral minor))

theorem yields_constraint (text : List Char) : (Npm.constraint text).Yields P Q := by
  refine (Yields.ofExcept fun _ _ => trivial).bind fun c _ => (Yields.version _).bind fun v hv => ?_
  exact .pure (h.constraint c.operator v hv)

theorem yields_comparator (text : List Char) : (comparator text).Yields P Q := by
  unfold comparator
  split
  · exact .fail _
  · split
    · exact (Yields.version _).map fun v hv => h.series v _ hv
    · exact (Yields.version _).map fun v hv => h.series v _ hv
    · split
      next range hrange => exact .pure (h.wildcardRange hrange)
      next => exact h.yields_constraint text

end Composes

variable (h : Closed P Q)

include h

theorem yields_hyphenRange (set : String) (tokens : List (List Char)) :
    (hyphenRange set tokens).Yields P Q := by
  unfold hyphenRange
  split
  · refine (Yields.version _).bind fun min hmin => (Yields.version _).bind fun max hmax => ?_
    exact .pure (h.between min max hmin hmax)
  · exact .fail _

theorem composes_of_closed : Composes P Q where
  unbounded := h.unbounded
  series := h.series
  release := h.release
  constraint _ _ hv := h.constraints _ (List.forall_mem_singleton.mpr hv)

theorem yields_conjunction (comparators : List (List Char)) :
    (conjunction comparators).Yields P Q := by
  cases comparators with
  | nil => exact .pure h.unbounded
  | cons first rest =>
    have hcomposes := composes_of_closed h
    refine (hcomposes.yields_comparator first).bind fun r hr => .foldlM hr fun s hs text _ => ?_
    exact (hcomposes.yields_comparator text).map fun t ht => h.inter s t hs ht

theorem yields_comparatorSet (text : List Char) : (comparatorSet text).Yields P Q := by
  unfold comparatorSet
  dsimp only
  split
  · exact yields_hyphenRange h _ _
  · exact (Yields.ofExcept fun _ _ => trivial).bind fun tokens _ => yields_conjunction h tokens

theorem yields_parse (text : String) : (parse text).Yields P Q := by
  unfold parse
  split
  · exact yields_comparatorSet h _
  · refine .foldlM h.empty fun r hr set _ => ?_
    exact (yields_comparatorSet h _).map fun s hs => h.union r s hr hs

end Npm

namespace Gem

theorem yields_pessimisticRange (h : ∀ v, P v → Q (pessimistic v)) (rest : List Char) :
    (pessimisticRange rest).Yields P Q := by
  unfold pessimisticRange
  dsimp only
  split
  · exact .fail _
  · exact (Yields.version _).map h

theorem yields_parse (h : Closed P Q) (text : String) : (parse text).Yields P Q := by
  have hnarrow (rests : List (List Char)) (start : Range) (hstart : Q start) :
      (rests.foldlM (fun range rest => range.inter <$> pessimisticRange rest) start).Yields P Q :=
    .foldlM hstart fun r hr rest _ =>
      (yields_pessimisticRange (fun v => h.series v _) rest).map fun s hs => h.inter r s hr hs
  unfold parse
  split
  · exact .pure h.unbounded
  · dsimp only
    split
    · exact .fail _
    · split
      · exact (Yields.pure h.unbounded).bind fun start hstart => hnarrow _ start hstart
      · exact (h.yields_ofPieces _).bind fun start hstart => hnarrow _ start hstart

end Gem

namespace Pypi

section Clauses

variable (hcompatible : ∀ v, P v → Q (compatible v)) (hprefixed : ∀ v, P v → Q (prefixed v))
  (hcompl : ∀ v, P v → Q (prefixed v).compl)

include hcompatible hprefixed hcompl

/-- The range of a clause is one of three that are made of the version that it shows. -/
theorem yields_ofSpecifier (s : Specifier) :
    (Clause.ofSpecifier s).Yields P fun clause => ∀ r ∈ clause.range?, Q r := by
  have hcompare (c : Constraint) : (Pure.pure (.constraint c) : Lookup Clause).Yields P
      fun clause => ∀ r ∈ clause.range?, Q r := .pure (by simp [Clause.range?])
  have hrange {text : List Char} {range : Version → Range} (h : ∀ v, P v → Q (range v)) :
      (Lookup.version text >>= fun v => Pure.pure (.range (range v)) : Lookup Clause).Yields P
        fun clause => ∀ r ∈ clause.range?, Q r :=
    (Yields.version text).bind fun v hv => .pure (by simpa [Clause.range?] using h v hv)
  unfold Clause.ofSpecifier
  dsimp only
  split
  · exact hrange hcompatible
  · exact hrange hprefixed
  · exact hrange hcompl
  · exact hcompare _
  · exact hcompare _
  · exact (Yields.ofExcept fun _ _ => trivial).bind fun op _ => hcompare _

theorem yields_readClause [Specifier.Reader] (set : String) (piece : List Char) :
    (readClause set piece).Yields P fun clause => ∀ r ∈ clause.range?, Q r :=
  (Yields.ofExcept fun _ _ => trivial).bind fun s _ =>
    yields_ofSpecifier hcompatible hprefixed hcompl s

end Clauses

theorem yields_parse [Specifier.Reader] (h : Closed P Q) (text : String) :
    (parse text).Yields P Q := by
  unfold parse
  split
  · exact .pure h.unbounded
  · have hclause (piece : List Char) :
        (readClause text piece).Yields P fun clause => ∀ r ∈ clause.range?, Q r :=
      yields_readClause (fun v => h.series v _) (fun v => h.series v _)
        (fun v hv => h.compl _ (h.series v _ hv)) text piece
    refine (Yields.mapM fun piece _ => hclause piece).bind fun clauses hclauses => ?_
    have hnarrow (start : Range) (hstart : Q start) :
        Q ((clauses.filterMap Clause.range?).foldl .inter start) := by
      refine h.foldl_inter hstart fun r hr => ?_
      obtain ⟨clause, hc, hr⟩ := List.mem_filterMap.mp hr
      exact hclauses clause hc r hr
    dsimp only
    split
    · exact (Yields.pure h.unbounded).bind fun start hstart => .pure (hnarrow start hstart)
    · exact (h.yields_build _).bind fun start hstart => .pure (hnarrow start hstart)

end Pypi

namespace Bracket

theorem yields_version? (text : List Char) : (version? text).Yields P fun v => ∀ u ∈ v, P u := by
  unfold version?
  split
  · exact .pure (by simp)
  · exact (Yields.version text).map fun v hv => by simpa using hv

/-- `Q` holds of every group with bounds that satisfy `P`. -/
def HoldsOfGroups (P : Version → Prop) (Q : Range → Prop) : Prop :=
  ∀ i : Interval, (∀ v ∈ i.lower.version, P v) → (∀ v ∈ i.upper.version, P v) → Q (.ofInterval i)

variable (hgroups : HoldsOfGroups P Q)

include hgroups

theorem yields_range (ecosystem : String) (g : Group) : (g.range ecosystem).Yields P Q := by
  unfold Group.range
  dsimp only
  split
  · split
    · refine (Yields.version _).map fun v hv => hgroups (.exact v) ?_ ?_
      · simpa [Interval.exact] using hv
      · simpa [Interval.exact] using hv
    · exact .fail _
  · split
    · exact .fail _
    · split
      · exact .fail _
      · split
        · exact .fail _
        · refine (yields_version? _).bind fun min hmin => ?_
          refine (yields_version? _).bind fun max hmax => ?_
          split
          · exact .fail _
          · exact .pure (hgroups _ hmin hmax)

theorem yields_parse (h : Closed P Q) {ecosystem : String} {other : List Char → Lookup Range}
    (hother : ∀ text, (other text).Yields P Q) (text : String) :
    (parse ecosystem other text).Yields P Q := by
  unfold parse
  dsimp only
  split
  · exact .fail _
  · split
    · refine (Yields.ofExcept fun _ _ => trivial).bind fun groups _ => ?_
      split
      · exact yields_range hgroups ecosystem _
      · refine .foldlM h.empty fun r hr group _ => ?_
        exact (yields_range hgroups ecosystem group).map fun s hs => h.union r s hr hs
    · split
      · exact (Yields.version _).map fun v hv => h.above hv
      · exact hother _

end Bracket

/-- The name stands for an ecosystem that writes ranges in brackets. -/
def Scheme.IsBracketed (name : String) : Prop :=
  Scheme.ofName? name = some .maven ∨ Scheme.ofName? name = some .nuget

instance (name : String) : Decidable (Scheme.IsBracketed name) :=
  inferInstanceAs (Decidable (_ ∨ _))

namespace Range

variable [Specifier.Reader]

theorem Closed.yields_parseNative (h : Closed P Q) {scheme : String}
    (hgroups : Scheme.IsBracketed scheme → Bracket.HoldsOfGroups P Q) (text : String) :
    (parseNative text scheme).Yields P Q := by
  have hlist (text : List Char) : (ofConstraintList text).Yields P Q := h.yields_ofPieces _
  refine Yields.mapError ?_ _
  unfold grammarOf
  cases hscheme : Scheme.ofName? scheme with
  | none => exact hlist _
  | some ecosystem =>
    cases ecosystem with
    | npm => exact Npm.yields_parse h text
    | gem => exact Gem.yields_parse h text
    | pypi => exact Pypi.yields_parse h text
    | maven => exact Bracket.yields_parse (hgroups (.inl hscheme)) h hlist text
    | nuget => exact Bracket.yields_parse (hgroups (.inr hscheme)) h (fun _ => .fail _) text
    | deb => exact hlist _
    | rpm => exact hlist _

/-- Whatever the ecosystem, the bounds of a range are among the versions that its text shows and the
ends of their series. -/
theorem yields_parseNative (hP : Version.SeriesClosed P) (text scheme : String) :
    (parseNative text scheme).Yields P (BoundedBy P) :=
  (closed_boundedBy hP).yields_parseNative (fun _ _ hl hu => boundedBy_ofInterval hl hu) text

end Range

end Versioning
