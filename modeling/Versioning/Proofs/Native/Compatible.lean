import Versioning.Proofs.Native.Conjunction
import Versioning.Proofs.Native.Series
import Versioning.Proofs.Native.Specifier

/-! Operators that stand for a series among requirements between commas: the pessimistic one of
gems, and in specifier sets the compatible release and the equality with a wildcard at its end.
They differ in how many numbers the versions of the series share, by which of the numbers are
there. -/

namespace Versioning

/-! ### Clauses of an operator and a version -/

namespace Pypi

open Text Specifier

variable {operator whole t : String} {rest : List Char} {c : Char} {r : Range} {w : Version}

theorem complete_append (h : operator ∈ seriesOperators) (rest : List Char) :
    complete (operator.toList ++ rest) = operator.toList ++ rest := by
  obtain rfl | rfl | rfl : operator = "~=" ∨ operator = "==" ∨ operator = "!=" := by
    simpa [seriesOperators] using h
  all_goals rfl

theorem dropMark_of_isDecimal (hd : isDecimal c = true) : dropMark (c :: rest) = c :: rest := by
  have hv : c ≠ 'v' := ne_of_isDecimal hd (by decide)
  have hV : c ≠ 'V' := ne_of_isDecimal hd (by decide)
  rw [dropMark]
  · exact fun _ heq => hv (List.cons.inj heq).1
  · exact fun _ heq => hV (List.cons.inj heq).1

theorem wildcardStart?_append (text : List Char) :
    wildcardStart? (text ++ ['.', '*']) = some text := by
  simp [wildcardStart?, dropStart?]

section Clauses

variable [Reader] (hreader : Reader.IsLawful)

include hreader

/-- A clause that stands for a range, and holds no comma since it is accepted, is a set of its
own. -/
theorem run_parse_of_range (hoperator : operator ∈ seriesOperators)
    (hwhole : whole.toList = operator.toList ++ c :: rest) (hc : c ≠ '=')
    (hblank : (c :: rest).any isBlank = false)
    (haccepts : (Reader.ofClause? whole.toList).isSome = true)
    (hr : (Clause.ofSpecifier ⟨operator, c :: rest⟩).run = .ok (.range r)) :
    (parse whole).run = .ok (Range.unbounded.inter r) := by
  rw [hwhole] at haccepts
  have hs := hreader.ofClause?_append hoperator hc hblank haccepts
  have hidentical : operator ≠ "===" := by
    rintro rfl
    exact absurd hoperator (by decide)
  have hcomma : ',' ∉ whole.toList := hwhole ▸ hreader.comma _ _ hs hidentical
  have hstrip : strip whole.toList = whole.toList := by
    refine strip_eq_self ?_
    rw [hwhole, List.any_append, hblank, Bool.or_false]
    exact (not_isBlank_of_mem_operators (mem_operators_of_mem_seriesOperators hoperator)).1
  have hreads : Reads whole.toList (.narrowing r) := by
    rw [hwhole]
    refine .range ?_ hr
    rw [complete_append hoperator, hs]
  have hrun : (parse whole).run = .ok (Range.ofRequirements [.narrowing r]) := by
    refine run_parse_of_reads ?_ ?_
    · rw [hstrip, hwhole]
      simp
    · rw [List.splitOn_eq_singleton hcomma, List.map_singleton, hstrip]
      exact .cons hreads .nil
  exact hrun

variable (h : Version.parse t = .ok w)

include h

theorem run_parse_compatible (haccepts : (Reader.ofClause? ("~=" ++ t).toList).isSome = true) :
    (parse ("~=" ++ t)).run = .ok (Range.unbounded.inter (compatible w)) := by
  obtain ⟨c, rest, htext, hd, hblank⟩ := Version.exists_first_of_parse h
  have hne : c ≠ '=' := ne_of_isDecimal hd (by decide)
  have hwhole : ("~=" ++ t).toList = "~=".toList ++ c :: rest := by rw [String.toList_append, htext]
  refine run_parse_of_range hreader (by decide) hwhole hne hblank haccepts ?_
  simp only [Clause.ofSpecifier, dropMark_of_isDecimal hd]
  rw [Lookup.run_bind, ← htext, Lookup.run_version_of_parse h]
  rfl

theorem run_parse_wildcard
    (haccepts : (Reader.ofClause? ("==" ++ t ++ ".*").toList).isSome = true) :
    (parse ("==" ++ t ++ ".*")).run = .ok (Range.unbounded.inter (prefixed w)) ∧
      (parse ("!=" ++ t ++ ".*")).run = .ok (Range.unbounded.inter (prefixed w).compl) := by
  obtain ⟨c, rest, htext, hd, hblank⟩ := Version.exists_first_of_parse h
  have hne : c ≠ '=' := ne_of_isDecimal hd (by decide)
  have hwhole (operator : String) :
      (operator ++ t ++ ".*").toList = operator.toList ++ c :: (rest ++ ['.', '*']) := by
    simp [htext]
  have hblank' : (c :: (rest ++ ['.', '*'])).any isBlank = false := by
    rw [← List.cons_append, List.any_append, hblank]
    decide
  have hversion : (Lookup.version (c :: rest)).run = .ok w := htext ▸ Lookup.run_version_of_parse h
  have hstart : wildcardStart? (c :: (rest ++ ['.', '*'])) = some (c :: rest) :=
    wildcardStart?_append (c :: rest)
  have hnegation : (Reader.ofClause? ("!=" ++ t ++ ".*").toList).isSome = true := by
    have hequal := haccepts
    rw [hwhole] at hequal ⊢
    exact hreader.negation _ _ (hreader.ofClause?_append (by decide) hne hblank' hequal) rfl
  constructor
  · refine run_parse_of_range hreader (by decide) (hwhole "==") hne hblank' haccepts ?_
    simp only [Clause.ofSpecifier, dropMark_of_isDecimal hd, hstart]
    rw [Lookup.run_bind, hversion]
    rfl
  · refine run_parse_of_range hreader (by decide) (hwhole "!=") hne hblank' hnegation ?_
    simp only [Clause.ofSpecifier, dropMark_of_isDecimal hd, hstart]
    rw [Lookup.run_bind, hversion]
    rfl

end Clauses

end Pypi

/-! ### The pessimistic operator -/

open Text

section Pessimistic

variable {t : String} {w : Version} (h : Version.parse t = .ok w)

include h

theorem Gem.run_parse_pessimistic (hcomma : ',' ∉ t.toList) :
    (parse ("~> " ++ t)).run = .ok (Range.unbounded.inter (pessimistic w)) := by
  obtain ⟨c, rest, htext, -, hblank⟩ := Version.exists_first_of_parse h
  have hwhole : ("~> " ++ t).toList = '~' :: (['>', ' '] ++ c :: rest) := by simp [htext]
  have hstrip : strip ("~> " ++ t).toList = '~' :: (['>', ' '] ++ c :: rest) := by
    rw [hwhole]
    exact strip_cons_append (by decide) (List.cons_ne_nil c rest) hblank
  have hpessimistic : pessimistic? (strip ("~> " ++ t).toList) = some (' ' :: c :: rest) := by
    rw [hstrip, pessimistic?, dropStart?_eq_some_iff]
    rfl
  have hrange : (pessimisticRange (' ' :: c :: rest)).run = .ok (pessimistic w) := by
    simp only [pessimisticRange, strip_cons (by decide : isBlank ' ' = true), strip_eq_self hblank]
    exact Lookup.run_map_eq_ok_iff.mpr ⟨w, htext ▸ Lookup.run_version_of_parse h, rfl⟩
  rw [parse_of_pessimistic (by rw [hstrip]; simp) (by simpa using hcomma) hpessimistic]
  exact Lookup.run_map_eq_ok_iff.mpr ⟨pessimistic w, hrange, rfl⟩

theorem Version.parsePessimistic_of_parse : parsePessimistic t = .ok w := by
  obtain ⟨c, rest, htext, hd, hblank⟩ := Version.exists_first_of_parse h
  have hstrip : strip t.toList = t.toList := strip_eq_self (htext ▸ hblank)
  have hc : c ≠ '~' := ne_of_isDecimal hd (by decide)
  have hbare : dropStart? ['~', '>'] t.toList = none := by
    rw [htext, dropStart?, if_neg (by simpa using hc.symm)]
  simp only [parsePessimistic, hstrip, hbare]
  exact (congrArg parse String.ofList_toList).trans h

end Pessimistic

/-! ### Series by the name of the ecosystem -/

namespace Range

/-- The operators for a series hold just the stable versions that are no lower than the version
behind them and have the same leading numbers; behind an inequality they hold all others.  With a
patch number, the pessimistic operator of gems and a compatible release share the major and the
minor number, and else the major one; an equality with a wildcard shares all numbers that are there.
For a pessimistic version on its own a minor or a patch number will do.  Of clauses this holds
whatever lawful reader accepts them. -/
theorem admitsJust_pessimistic [Specifier.Reader] {t : String} {w : Version}
    (h : Version.parse t = .ok w) :
    (',' ∉ t.toList → AdmitsJust ("~> " ++ t) "gem" fun v =>
      w ≤ v ∧ v.AgreesOn (if w.patch.isSome then 2 else 1) w) ∧
    (Specifier.Reader.IsLawful →
      ((Specifier.Reader.ofClause? ("~=" ++ t).toList).isSome = true →
        AdmitsJust ("~=" ++ t) "pypi" fun v =>
          w ≤ v ∧ v.AgreesOn (if w.patch.isSome then 2 else 1) w) ∧
      ((Specifier.Reader.ofClause? ("==" ++ t ++ ".*").toList).isSome = true →
        AdmitsJust ("==" ++ t ++ ".*") "pypi" (fun v => w ≤ v ∧
          v.AgreesOn (if w.patch.isSome then 3 else if w.minor.isSome then 2 else 1) w) ∧
        AdmitsJust ("!=" ++ t ++ ".*") "pypi" fun v => ¬(w ≤ v ∧
          v.AgreesOn (if w.patch.isSome then 3 else if w.minor.isSome then 2 else 1) w))) ∧
    Version.parsePessimistic t = .ok w ∧
      ∀ shown v, Version.parse shown = .ok v → v.prerelease = none →
        (v.satisfiesPessimistic w = true ↔
          w ≤ v ∧ v.AgreesOn (if w.minor.isSome || w.patch.isSome then 2 else 1) w) := by
  refine ⟨fun hcomma => ?gem,
    fun hreader => ⟨fun haccepts => ?compatible, fun haccepts => ?wildcard⟩,
    Version.parsePessimistic_of_parse h, fun _ v hshown hv => ?_⟩
  case gem =>
    have hrun := Gem.run_parse_pessimistic h hcomma
    rw [← grammarOf_gem] at hrun
    refine admitsJust_of_run hrun fun v hn hv => ?_
    rw [Gem.pessimistic, contains_unbounded_inter_series_iff hn hv]
    split <;> rfl
  case compatible =>
    have hrun := Pypi.run_parse_compatible hreader h haccepts
    rw [← grammarOf_pypi] at hrun
    refine admitsJust_of_run hrun fun v hn hv => ?_
    rw [Pypi.compatible, contains_unbounded_inter_series_iff hn hv]
    split <;> rfl
  case wildcard =>
    have hrun := Pypi.run_parse_wildcard hreader h haccepts
    rw [← grammarOf_pypi] at hrun
    refine ⟨admitsJust_of_run hrun.1 fun v hn hv => ?_, admitsJust_of_run hrun.2 fun v hn hv => ?_⟩
    · rw [Pypi.prefixed, contains_unbounded_inter_series_iff hn hv]
      split
      · rfl
      · split <;> rfl
    · rw [Pypi.prefixed, contains_unbounded_inter_compl_series_iff hn hv]
      split
      · rfl
      · split <;> rfl
  exact Version.satisfiesPessimistic_iff (Version.isShown_of_parse hshown).isNatural hv

/-- The fourth number is read as a prerelease, so that the series start just before `1.4.5`. -/
theorem admitsJust_pessimistic_segments :
    let w : Version :=
      ⟨{ major := 1, minor := some 4, patch := some 5, prerelease := some "2" }, "1.4.5.2"⟩
    let v (patch : Nat) : Version := .ofRelease ⟨1, 4, patch⟩
    Version.parse "1.4.5.2" = .ok w ∧
      (∃ r, (parseNative "~> 1.4.5.2" "gem").run = .ok r ∧ r.contains (v 6) = true) ∧
      (∃ r, (parseNative "~=1.4.5.2" "pypi").run = .ok r ∧ r.contains (v 5) = true) ∧
      (∃ r, (parseNative "==1.4.5.2.*" "pypi").run = .ok r ∧ r.contains (v 5) = true ∧
        r.contains (v 6) = false) ∧
      (∃ r, (parseNative "!=1.4.5.2.*" "pypi").run = .ok r ∧ r.contains (v 6) = true) ∧
      (v 6).satisfiesPessimistic w = true := by
  intro w v
  have hparse : Version.parse "1.4.5.2" = .ok w := by decide +kernel
  have hv (patch : Nat) : Version.parse (v patch).text = .ok (v patch) :=
    Version.isShown_ofRelease 1 4 patch
  obtain ⟨hgem, hclauses, -, hsatisfies⟩ := admitsJust_pessimistic hparse
  obtain ⟨hcompatible, hwildcard⟩ := hclauses Pep440.isLawful
  obtain ⟨r, hr, hgem⟩ := hgem (by decide +kernel)
  obtain ⟨s, hs, hcompatible⟩ := hcompatible (by decide +kernel)
  obtain ⟨⟨p, hp, hequal⟩, ⟨q, hq, hnotEqual⟩⟩ := hwildcard (by decide +kernel)
  refine ⟨hparse, ⟨r, hr, ?_⟩, ⟨s, hs, ?_⟩, ⟨p, hp, ?_, ?_⟩, ⟨q, hq, ?_⟩, ?_⟩
  · exact (hgem _ _ (hv 6) rfl).mpr (by decide +kernel)
  · exact (hcompatible _ _ (hv 5) rfl).mpr (by decide +kernel)
  · exact (hequal _ _ (hv 5) rfl).mpr (by decide +kernel)
  · exact Bool.eq_false_of_not_eq_true fun h =>
      absurd ((hequal _ _ (hv 6) rfl).mp h) (by decide +kernel)
  · exact (hnotEqual _ _ (hv 6) rfl).mpr (by decide +kernel)
  · exact (hsatisfies _ _ (hv 6) rfl).mpr (by decide +kernel)

end Range

end Versioning
