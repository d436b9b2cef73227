import Mathlib.Data.List.Perm.Basic
import Versioning.Proofs.Native.Alternatives
import Versioning.Proofs.Native.Bounds
import Versioning.Proofs.Native.Conjunction

/-! Comparators between blanks.  A set of them without a dash and without operators that stand apart
is read word by word, and what the words show is intersected.  Each word shows a settled range, so
the set holds just what all of its words hold. -/

namespace Versioning

/-! ### Words -/

namespace Text

variable {c : Char} {text word : List Char}

/-- A blank divides the words of a text. -/
theorem words_append_cons (hc : isBlank c = true) (before after : List Char) :
    words (before ++ c :: after) = words before ++ words after := by
  rw [words, List.splitOnP_append_cons before after hc, List.filter_append]
  rfl

theorem words_cons (hc : isBlank c = true) : words (c :: text) = words text :=
  words_append_cons hc [] text

theorem words_concat (hc : isBlank c = true) : words (text ++ [c]) = words text := by
  rw [words_append_cons hc]
  exact List.append_nil _

theorem words_strip (text : List Char) : words (strip text) = words text :=
  apply_strip (fun _ _ => words_cons) (fun _ _ => words_concat) text

theorem infix_of_mem_words (h : word ∈ words text) : word <:+: text :=
  (mem_splitOnP (List.mem_of_mem_filter h)).1

theorem not_isBlank_of_mem_words (h : word ∈ words text) : ∀ c ∈ word, isBlank c = false :=
  (mem_splitOnP (List.mem_of_mem_filter h)).2

theorem words_eq_singleton (hne : word ≠ []) (hb : ∀ c ∈ word, isBlank c = false) :
    words word = [word] := by
  rw [words, List.splitOnP_eq_singleton hb]
  simp [hne]

theorem words_of_not_isBlank (hne : word ≠ []) (hb : word.any isBlank = false) :
    words word = [word] :=
  words_eq_singleton hne fun c hc => by simpa using List.any_eq_false.mp hb c hc

/-- A word is its only word. -/
theorem words_of_mem_words (h : word ∈ words text) : words word = [word] :=
  words_eq_singleton (by simpa using (List.mem_filter.mp h).2) (not_isBlank_of_mem_words h)

end Text

/-! ### Settled ranges -/

namespace Range

variable {op : Operator} {rs : List Range} {v : Version}

theorem isSettled_ofConstraints_singleton (hv : v.IsOrdered) :
    (ofConstraints [(op, v)]).IsSettled := by
  cases hi : op.interval? v with
  | none =>
    obtain rfl := Operator.interval?_eq_none_iff.mp hi
    exact IsSeed.unbounded.isSettled.exclude hv
  | some i =>
    rw [ofConstraints_singleton hi]
    exact (IsSeed.interval (Operator.isOrdered_interval? hv hi)).isSettled

/-- What all of the ranges hold. -/
def meet : List Range → Range
  | [] => unbounded
  | first :: rest => rest.foldl inter first

theorem contains_meet_iff (h : ∀ s ∈ rs, s.IsSettled) (hv : v.IsOrdered) :
    (meet rs).contains v = true ↔ ∀ s ∈ rs, s.contains v = true := by
  cases rs with
  | nil => exact iff_of_true contains_unbounded (List.forall_mem_nil _)
  | cons first rest =>
    obtain ⟨hfirst, hrest⟩ := List.forall_mem_cons.mp h
    rw [List.forall_mem_cons]
    constructor
    · exact contains_of_contains_foldl_inter hfirst.isOrdered
        (fun s hs => (hrest s hs).isOrdered) hv
    · rintro ⟨hfv, hrv⟩
      exact contains_foldl_inter hfirst hrest hv hfv hrv

end Range

/-! ### Sets of comparators -/

namespace Npm

open Text

variable {text : String} {word : List Char} {comparators : List (List Char)} {r : Range}

theorem composes_isSettled : Composes Version.IsOrdered Range.IsSettled where
  unbounded := Range.IsSeed.unbounded.isSettled
  series _ component hv := (Range.isNarrowing_series hv component).1.settled
  release major minor := Version.isOrdered_ofRelease ⟨major, minor, 0⟩
  constraint _ _ hv := Range.isSettled_ofConstraints_singleton hv

theorem conjunction_eq (comparators : List (List Char)) :
    conjunction comparators = Range.meet <$> comparators.mapM comparator := by
  cases comparators with
  | nil => rfl
  | cons first rest =>
    simp only [conjunction, List.mapM_cons, Lookup.foldlM_map_eq, map_bind, bind_pure_comp,
      Functor.map_map]
    rfl

theorem conjunction_singleton (word : List Char) : conjunction [word] = comparator word :=
  bind_pure (comparator word)

/-- From ordered versions, comparators make settled ranges, which are intersected. -/
theorem yields_conjunction_meet (comparators : List (List Char)) :
    (conjunction comparators).Yields Version.IsOrdered fun r =>
      ∃ rs, (∀ s ∈ rs, s.IsSettled) ∧
        List.Forall₂ (fun word s => (comparator word).run = .ok s) comparators rs ∧
        Range.meet rs = r := by
  rw [conjunction_eq]
  refine (Lookup.Yields.mapM fun word _ => composes_isSettled.yields_comparator word).and_run.map ?_
  exact fun rs ⟨hsettled, hrun⟩ => ⟨rs, hsettled, Lookup.run_mapM_eq_ok_iff.mp hrun, rfl⟩

/-- The text is a set of comparators between blanks: there is no double bar, no dash stands for
itself, and no operator stands apart from its version. -/
structure IsComparatorSet (text : String) : Prop where
  bar : ¬['|', '|'] <:+: text.toList
  dash : ['-'] ∉ words text.toList
  attached : ∀ word ∈ words text.toList, isOperator word = false

/-- A text without a double bar is a single set. -/
theorem parse_eq_comparatorSet (h : ¬['|', '|'] <:+: text.toList) :
    parse text = comparatorSet (strip text.toList) := by
  rw [parse_eq, splitOnPair_eq_singleton h, List.map_singleton, Range.readAlternatives]

theorem exists_of_isOperator (hop : isOperator word = true) :
    ∃ symbol ∈ operators, symbol.toList = word := by
  obtain ⟨symbol, hsymbol, heq⟩ := List.any_eq_true.mp hop
  exact ⟨symbol, hsymbol, beq_iff_eq.mp heq⟩

theorem of_isOperator {P : List Char → Prop} (h : ∀ symbol ∈ operators, P symbol.toList)
    (hop : isOperator word = true) : P word := by
  obtain ⟨symbol, hsymbol, rfl⟩ := exists_of_isOperator hop
  exact h symbol hsymbol

theorem attachOperators_of_attached {set : String}
    (h : ∀ word ∈ comparators, isOperator word = false) :
    attachOperators set none comparators = .ok comparators := by
  induction comparators with
  | nil => rfl
  | cons word rest ih =>
    obtain ⟨hword, hrest⟩ := List.forall_mem_cons.mp h
    rw [attachOperators, if_neg (by simp [hword]), ih hrest]
    rfl

namespace IsComparatorSet

theorem parse_eq_conjunction (h : IsComparatorSet text) :
    parse text = conjunction (words text.toList) := by
  rw [parse_eq_comparatorSet h.bar, comparatorSet]
  simp only [words_strip, List.contains_iff_mem, h.dash, if_false,
    attachOperators_of_attached h.attached]
  rfl

/-- Each word is a set of its own. -/
theorem of_mem_words (h : IsComparatorSet text) (hword : word ∈ words text.toList) :
    IsComparatorSet (String.ofList word) := by
  refine ⟨?_, ?_, ?_⟩ <;> rw [String.toList_ofList]
  · exact fun hbar => h.bar (hbar.trans (infix_of_mem_words hword))
  · rw [words_of_mem_words hword, List.mem_singleton]
    rintro rfl
    exact h.dash hword
  · rw [words_of_mem_words hword]
    exact List.forall_mem_singleton.mpr (h.attached word hword)

theorem parse_word (h : IsComparatorSet text) (hword : word ∈ words text.toList) :
    parse (String.ofList word) = comparator word := by
  rw [(h.of_mem_words hword).parse_eq_conjunction, String.toList_ofList, words_of_mem_words hword,
    conjunction_singleton]

end IsComparatorSet

end Npm

/-! ### Native ranges -/

namespace Range

open Text

/-- A set of comparators that is read from ordered versions holds just the ordered versions that
each of its words holds; so another set of the same words, in whatever order, is read too and holds
the same. -/
theorem exists_parseNative_comparators [Specifier.Reader] {text : String} {r : Range}
    (h : Npm.IsComparatorSet text) (ho : ∀ v ∈ (parseNative text "npm").found, v.IsOrdered)
    (hr : (parseNative text "npm").run = .ok r) :
    ∃ rs, List.Forall₂ (fun word s => (parseNative (String.ofList word) "npm").run = .ok s)
        (words text.toList) rs ∧
      (∀ v : Version, v.IsOrdered →
        (r.contains v = true ↔ ∀ s ∈ rs, s.contains v = true)) ∧
      ∀ text', Npm.IsComparatorSet text' → (words text'.toList).Perm (words text.toList) →
        ∃ r', (parseNative text' "npm").run = .ok r' ∧
          ∀ v : Version, v.IsOrdered → r'.contains v = r.contains v := by
  rw [parseNative, Lookup.found_mapError] at ho
  simp only [run_parseNative_eq_ok_iff, grammarOf_npm] at ho hr ⊢
  rw [h.parse_eq_conjunction] at ho hr
  obtain ⟨rs, hsettled, hrs, rfl⟩ := Npm.yields_conjunction_meet _ ho r hr
  refine ⟨rs, ?_, fun v hv => contains_meet_iff hsettled hv, fun text' h' hperm => ?_⟩
  · refine ((List.forall₂_and_left _ rs).mpr ⟨fun _ hword => hword, hrs⟩).imp ?_
    rintro word s ⟨hword, hs⟩
    rwa [h.parse_word hword]
  · obtain ⟨rs', hrs', hperm'⟩ := List.perm_comp_forall₂ hperm hrs
    have hsettled' : ∀ s ∈ rs', s.IsSettled := fun s hs => hsettled s (hperm'.mem_iff.mp hs)
    refine ⟨meet rs', ?_, fun v hv => Bool.eq_iff_iff.mpr ?_⟩
    · rw [h'.parse_eq_conjunction, Npm.conjunction_eq, Lookup.run_map_eq_ok_iff]
      exact ⟨rs', Lookup.run_mapM_eq_ok_iff.mpr hrs', rfl⟩
    · rw [contains_meet_iff hsettled' hv, contains_meet_iff hsettled hv]
      exact forall_congr' fun s => imp_congr_left hperm'.mem_iff

/-- A caret range, an exclusion, a comparison and a series, with more than one blank between them,
and the same in another order. -/
theorem exists_parseNative_comparators_reordered :
    let v (major minor : Int) : Version := .ofComponents { major, minor := some minor }
    let text := "^1.0  !=1.5\t<1.8 1.x "
    let text' := "1.x <1.8 ^1.0 !=1.5"
    Npm.IsComparatorSet text ∧
      ∃ r', (parseNative text' "npm").run = .ok r' ∧ r'.contains (v 1 3) = true ∧
        r'.contains (v 1 5) = false := by
  intro v text text'
  have hv (major minor : Int) : (v major minor).IsOrdered := by simp [Version.IsOrdered, v,
    Version.ofComponents, Components.identifiers]
  have htext : Npm.IsComparatorSet text := ⟨by decide +kernel, by decide +kernel, by decide +kernel⟩
  have htext' : Npm.IsComparatorSet text' :=
    ⟨by decide +kernel, by decide +kernel, by decide +kernel⟩
  let r : Range := ⟨[⟨{ version := v 1 0 }, ⟨v 1 5, false⟩⟩, ⟨⟨v 1 5, false⟩, ⟨v 1 8, false⟩⟩]⟩
  have hr : (parseNative text "npm").run = .ok r := by decide +kernel
  obtain ⟨rs, -, -, hreordered⟩ := exists_parseNative_comparators htext (by decide +kernel) hr
  obtain ⟨r', hr', hcontains⟩ := hreordered text' htext' (by decide +kernel)
  refine ⟨htext, r', hr', ?_, ?_⟩
  · rw [hcontains (v 1 3) (hv 1 3)]
    decide +kernel
  · rw [hcontains (v 1 5) (hv 1 5)]
    decide +kernel

end Range

end Versioning
