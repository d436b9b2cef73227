import Versioning.Proofs.Native.Checked
import Versioning.Proofs.Native.Conjunction
import Versioning.Proofs.Native.Specifier

/-! How the reading of a native range can end: in a range, or in an error about the range, which
carries what went wrong with a constraint, a version or a specifier in it.  That no operator is
unknown rests on the reader of clauses. -/

namespace Versioning.Range

section Outcomes

variable [Specifier.Reader] {text scheme : String} {e : FormatError}

theorem run_parseNative_of_range (h : (grammarOf scheme text).run = .error e)
    (hkind : e.kind = .range) : (parseNative text scheme).run = .error e := by
  rw [parseNative, Lookup.run_mapError, h, Except.mapError, if_pos hkind]

theorem run_parseNative_of_ne_range (h : (grammarOf scheme text).run = .error e)
    (hkind : e.kind ≠ .range) :
    (parseNative text scheme).run = .error (.native scheme text e) := by
  rw [parseNative, Lookup.run_mapError, h, Except.mapError, if_neg hkind]

theorem run_parseNative_cases (text scheme : String) :
    (∃ r, (parseNative text scheme).run = .ok r) ∨
      ∃ e, (parseNative text scheme).run = .error e ∧ e.kind = .range := by
  cases hrun : (grammarOf scheme text).run with
  | ok r => exact .inl ⟨r, run_parseNative_eq_ok_iff.mpr hrun⟩
  | error e =>
    by_cases hkind : e.kind = .range
    · exact .inr ⟨e, run_parseNative_of_range hrun hkind, hkind⟩
    · exact .inr ⟨_, run_parseNative_of_ne_range hrun hkind, rfl⟩

/-- The first clause that is no specifier is what is wrong with the set. -/
theorem run_parse_pypi_of_reject {before after : List (List Char)} {piece : List Char}
    (hne : Text.strip text.toList ≠ [])
    (hsplit : text.toList.splitOn ',' = before ++ piece :: after)
    (hbefore : ∀ p ∈ before, ∃ clause, (Pypi.readClause text p).run = .ok clause)
    (hreject : Specifier.Reader.ofClause? (Pypi.complete (Text.strip piece)) = none) :
    (Pypi.parse text).run =
      .error (.specifier (String.ofList (Pypi.complete (Text.strip piece))) text) := by
  have hpiece : (Pypi.readClause text piece).run =
      .error (.specifier (String.ofList (Pypi.complete (Text.strip piece))) text) := by
    rw [Pypi.readClause, Lookup.run_bind, Lookup.run_ofExcept, Pypi.specifier, hreject]
    rfl
  rw [Pypi.parse_eq hne, Lookup.run_bind, Lookup.run_mapM, hsplit,
    mapM_eq_error_of_append hbefore hpiece]
  rfl

/-- If all clauses are read as having operators of specifiers, no step of a grammar fails for want
of an element, a number or a name; nor does any comparison of versions.  So a text is read as a
range just if no error is met on the way.  An error about a range is reported as it is; any other is
reported as the reason why the range could not be read.  A clause that is no specifier is the cause
of an error about the range. -/
theorem parseNative_outcome
    (hoperators : ∀ clause, ∀ s ∈ Specifier.Reader.ofClause? clause,
      s.operator ∈ Specifier.operators) (text scheme : String) :
    Checked.parseNative text scheme = some (parseNative text scheme).run ∧
    (∀ u v, Checked.compare u v = some (compare u v)) ∧
    ((∃ r, (parseNative text scheme).run = .ok r) ∨
      ∃ e, (parseNative text scheme).run = .error e ∧ e.kind = .range) ∧
    ((∃ r, (parseNative text scheme).run = .ok r) ↔ (grammarOf scheme text).met = []) ∧
    (∀ e ∈ (grammarOf scheme text).met,
      (e.kind = .range → (parseNative text scheme).run = .error e) ∧
      (e.kind ≠ .range → ∃ e', (parseNative text scheme).run = .error e' ∧
        e' = .native scheme text e ∧ e'.kind = .range ∧ e'.cause? = some (.error e.kind))) ∧
    (Scheme.ofName? scheme = some .pypi → Text.strip text.toList ≠ [] → ∀ before piece after,
      text.toList.splitOn ',' = before ++ piece :: after →
      (∀ p ∈ before, ∃ clause, (Pypi.readClause text p).run = .ok clause) →
      Specifier.Reader.ofClause? (Pypi.complete (Text.strip piece)) = none →
      ∃ e, (parseNative text scheme).run = .error e ∧
        e = .specifier (String.ofList (Pypi.complete (Text.strip piece))) text ∧
        e.kind = .range ∧ e.cause? = some .specifierGrammar) := by
  have hrealizes := Checked.realizes_grammarOf hoperators scheme text
  refine ⟨Checked.parseNative_eq hoperators text scheme, Checked.compare_eq,
    run_parseNative_cases text scheme, ?_, fun e he => ⟨fun hkind => ?_, fun hkind => ?_⟩, ?_⟩
  · simp only [run_parseNative_eq_ok_iff]
    exact hrealizes.exists_run_eq_ok_iff
  · exact run_parseNative_of_range (hrealizes.run_of_mem_met he) hkind
  · have hrun := run_parseNative_of_ne_range (hrealizes.run_of_mem_met he) hkind
    exact ⟨_, hrun, rfl, rfl, rfl⟩
  · intro hscheme hne before piece after hsplit hbefore hreject
    have hgrammar : grammarOf scheme text = Pypi.parse text := by
      rw [grammarOf, hscheme]
      rfl
    have hrun := run_parse_pypi_of_reject hne hsplit hbefore hreject
    exact ⟨_, run_parseNative_of_range (hgrammar ▸ hrun) rfl, rfl, rfl, rfl⟩

end Outcomes

/-- A bound that is no version, an operator without a version, and a clause that is no specifier. -/
theorem parseNative_outcome_causes :
    let fails (text scheme : String) (cause : FormatError.Cause) : Prop :=
      ∃ e, (parseNative text scheme).run = .error e ∧ e.kind = .range ∧ e.cause? = some cause
    fails "[1,x)" " Maven" (.error .version) ∧ fails "1|>=" "conan" (.error .constraint) ∧
      fails "~=1.4, bad" "PyPI" .specifierGrammar := by
  have hoperators : ∀ clause, ∀ s ∈ Specifier.Reader.ofClause? clause,
      s.operator ∈ Specifier.operators := fun _ _ => Pep440.isLawful.operator_mem
  refine ⟨?_, ?_, ?_⟩
  · have hmet : .version "x" ∈ (grammarOf " Maven" "[1,x)").met := by decide +kernel
    obtain ⟨e, hrun, -, hkind, hcause⟩ :=
      ((parseNative_outcome hoperators "[1,x)" " Maven").2.2.2.2.1 _ hmet).2 (by decide)
    exact ⟨e, hrun, hkind, hcause⟩
  · have hmet : .constraint (.noVersion ">=") ∈ (grammarOf "conan" "1|>=").met := by decide +kernel
    obtain ⟨e, hrun, -, hkind, hcause⟩ :=
      ((parseNative_outcome hoperators "1|>=" "conan").2.2.2.2.1 _ hmet).2 (by decide)
    exact ⟨e, hrun, hkind, hcause⟩
  · have hfirst : ∃ clause, (Pypi.readClause "~=1.4, bad" "~=1.4".toList).run = .ok clause := by
      have hok : (Pypi.readClause "~=1.4, bad" "~=1.4".toList).run.isOk = true := by decide +kernel
      cases hrun : (Pypi.readClause "~=1.4, bad" "~=1.4".toList).run with
      | ok clause => exact ⟨clause, rfl⟩
      | error e =>
        rw [hrun] at hok
        cases hok
    obtain ⟨e, hrun, -, hkind, hcause⟩ :=
      (parseNative_outcome hoperators "~=1.4, bad" "PyPI").2.2.2.2.2
        (by decide +kernel) (by decide +kernel) ["~=1.4".toList] " bad".toList []
        (by decide +kernel) (List.forall_mem_singleton.mpr hfirst) (by decide +kernel)
    exact ⟨e, hrun, hkind, hcause⟩

end Versioning.Range
