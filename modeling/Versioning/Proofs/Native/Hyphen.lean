import Versioning.Proofs.Native.Series

/-! Two versions with a dash between them, and the same versions after the operators of a lower and
an upper bound.  Both texts look the same versions up in the same order, whatever marks, wildcards
or other signs show them; and the rays of the operators meet in the interval from the one version
to the other. -/

namespace Versioning

/-! ### Intervals -/

section Between

variable {u v w : Version}

theorem Bound.admits_upper_inclusive_iff : admits .upper ⟨some w, true⟩ v = true ↔ v ≤ w := by
  rw [Version.le_iff_not_lt]
  show _ ↔ ¬Ord.compare w v = .lt
  simp only [admits, Side.compare]
  cases Ord.compare w v <;> simp

theorem Interval.isEmpty_between_iff :
    isEmpty ⟨{ version := u }, { version := w }⟩ = true ↔ w < u := by
  show _ ↔ Ord.compare w u = .lt
  rw [Std.OrientedOrd.eq_swap (a := w)]
  simp only [isEmpty]
  cases Ord.compare u w <;> simp

theorem Interval.contains_between_iff :
    contains ⟨{ version := u }, { version := w }⟩ v = true ↔ ¬w < u ∧ u ≤ v ∧ v ≤ w := by
  rw [contains, Bool.and_eq_true, Bool.and_eq_true, Bool.not_eq_true', ← Bool.not_eq_true,
    isEmpty_between_iff, and_assoc, ← Bound.admits_lower_iff, ← Bound.admits_upper_inclusive_iff]

/-- The rays from one version up and from another one down meet in the interval between them. -/
theorem Range.inter_rays_eq (u w : Version) :
    (ofConstraints [(.greaterEqual, u)]).inter (ofConstraints [(.lessEqual, w)]) =
      ofInterval ⟨{ version := u }, { version := w }⟩ := by
  have hlower : ofConstraints [(.greaterEqual, u)] = ofInterval (.above u true) :=
    ofConstraints_singleton rfl
  have hupper : ofConstraints [(.lessEqual, w)] = ofInterval (.below w true) :=
    ofConstraints_singleton rfl
  rw [hlower, hupper]
  rfl

end Between

namespace Npm

open Text

variable {c : Char} {word rest : List Char} {a b : String}

/-! ### Constraints as comparators -/

theorem exists_symbol_eq_cons (op : Operator) :
    ∃ c rest, op.symbol.toList = c :: rest ∧ c ∈ ['!', '<', '=', '>'] := by
  have hhead : op.symbol.toList.head?.any (['!', '<', '=', '>'].contains ·) = true := by
    cases op <;> decide
  cases hsymbol : op.symbol.toList with
  | nil => simp [hsymbol] at hhead
  | cons c rest => exact ⟨c, rest, rfl, by simpa [hsymbol] using hhead⟩

/-- Only a wildcard or a number can stand in front of the first dot. -/
theorem wildcardRange?_eq_none (hdot : c ≠ '.') (hwildcard : c ≠ '*' ∧ c ≠ 'x' ∧ c ≠ 'X')
    (hdigit : c.isDigit = false) : wildcardRange? (c :: rest) = none := by
  obtain ⟨first, more, hrest⟩ := List.exists_cons_of_ne_nil (List.splitOn_ne_nil '.' rest)
  have hparts : (c :: rest).splitOn '.' = (c :: first) :: more := by
    rw [List.splitOn_cons_eq_if_modifyHead, if_neg (by simpa using hdot), hrest]
    rfl
  have hfirst : isWildcard (c :: first) = false := by simp [isWildcard, hwildcard]
  have hnumeric : isNumeric (c :: first) = false := by simp [isNumeric, hdigit]
  simp [wildcardRange?, hparts, hfirst, hnumeric]

theorem constraint_symbol_append (op : Operator)
    (hop : op.symbol.toList.length = 2 ∨ word.head? ≠ some '=') (hne : word ≠ [])
    (hblank : word.any isBlank = false) : constraint (op.symbol.toList ++ word) =
      (fun v => Range.ofConstraints [(op, v)]) <$> version word := by
  have hparse : Constraint.parse (String.ofList (op.symbol.toList ++ word)) =
      .ok ⟨op, String.ofList word⟩ := by
    rw [Constraint.parse, String.toList_ofList, Operator.split?_append hop]
    simp [strip_eq_self hblank, hne]
  calc constraint (op.symbol.toList ++ word)
      = (do return Range.ofConstraints [(op, ← version (String.ofList word).toList)]) := by
        rw [constraint, hparse]
        rfl
    _ = (fun v => Range.ofConstraints [(op, v)]) <$> version word := by
        rw [String.toList_ofList, bind_pure_comp]

/-- An operator with a version behind it is read as a constraint, since no other comparator starts
with a sign of an operator. -/
theorem comparator_symbol_append (op : Operator)
    (hop : op.symbol.toList.length = 2 ∨ word.head? ≠ some '=') (hne : word ≠ [])
    (hblank : word.any isBlank = false) : comparator (op.symbol.toList ++ word) =
      (fun v => Range.ofConstraints [(op, v)]) <$> version word := by
  obtain ⟨c, rest, hsymbol, hc⟩ := exists_symbol_eq_cons op
  have hsign (p : Char → Bool) (hp : ['!', '<', '=', '>'].all p = true) : p c = true :=
    List.all_eq_true.mp hp c hc
  have hother (x : Char) (hx : ['!', '<', '=', '>'].all (· != x) = true) : c ≠ x := by
    simpa using hsign (· != x) hx
  have hlocation : isLocation (c :: (rest ++ word)) = false := by
    apply isLocation_eq_false Char.isAlpha (by decide +kernel)
    simpa using hsign (!·.isAlpha) (by decide)
  have hwildcard : wildcardRange? (c :: (rest ++ word)) = none := by
    apply wildcardRange?_eq_none (hother '.' (by decide))
    · exact ⟨hother '*' (by decide), hother 'x' (by decide), hother 'X' (by decide)⟩
    · simpa using hsign (!·.isDigit) (by decide)
  rw [← constraint_symbol_append op hop hne hblank, hsymbol, List.cons_append, comparator,
    if_neg (by simp [hlocation]), hwildcard]
  · exact fun _ heq => hother '^' (by decide) (List.cons.inj heq).1
  · exact fun _ heq => hother '~' (by decide) (List.cons.inj heq).1

/-! ### Both spellings -/

/-- The text can stand beside a dash: it is one word, and has no double bar in it. -/
structure IsOperand (text : String) : Prop where
  nonempty : text.toList ≠ []
  blank : text.toList.any isBlank = false
  bar : ¬['|', '|'] <:+: text.toList

theorem IsOperand.words_eq (h : IsOperand a) : words a.toList = [a.toList] :=
  words_of_not_isBlank h.nonempty h.blank

theorem IsOperand.symbol_append (op : Operator) (h : IsOperand a) :
    IsOperand (op.symbol ++ a) := by
  refine ⟨by simp [h.nonempty], ?_, ?_⟩ <;> rw [String.toList_append]
  · rw [List.any_append, Operator.isBlank_symbol, h.blank, Bool.or_self]
  · exact not_pair_infix_append Operator.bar_not_mem_symbol h.bar

theorem isOperator_symbol_append (op : Operator) (hop : op.symbol.toList.length = 2)
    (hne : word ≠ []) : isOperator (op.symbol.toList ++ word) = false := by
  refine Bool.eq_false_of_not_eq_true fun hbare => ?_
  have hlength := of_isOperator (P := (·.length ≤ 2)) (by decide +kernel) hbare
  have hpos : 0 < word.length := List.length_pos_of_ne_nil hne
  rw [List.length_append] at hlength
  omega

/-- The range from the version that one text shows to that of another. -/
def between (lower upper : List Char) : Lookup Range := do
  let min ← version lower
  let max ← version upper
  return .ofInterval ⟨{ version := min }, { version := max }⟩

theorem run_between_eq_ok_iff {lower upper : List Char} {r : Range} :
    (between lower upper).run = .ok r ↔ ∃ min max, (version lower).run = .ok min ∧
      (version upper).run = .ok max ∧
        .ofInterval ⟨{ version := min }, { version := max }⟩ = r := by
  simp only [between, Lookup.run_bind_eq_ok_iff, Lookup.run_pure, Except.ok.injEq]
  constructor
  · rintro ⟨min, hmin, max, hmax, hr⟩
    exact ⟨min, max, hmin, hmax, hr⟩
  · rintro ⟨min, max, hmin, hmax, hr⟩
    exact ⟨min, hmin, max, hmax, hr⟩

theorem parse_dash (ha : IsOperand a) (hb : IsOperand b) :
    parse (a ++ " - " ++ b) = between a.toList b.toList := by
  have htext : (a ++ " - " ++ b).toList = a.toList ++ ' ' :: (['-'] ++ ' ' :: b.toList) := by simp
  have hbar : ¬['|', '|'] <:+: (a ++ " - " ++ b).toList := by
    rw [htext]
    apply not_pair_infix_append_cons (by decide) ha.bar
    exact not_pair_infix_append_cons (by decide) (by decide) hb.bar
  have hwords : words (a ++ " - " ++ b).toList = [a.toList, ['-'], b.toList] := by
    have hdash : words ['-'] = [['-']] :=
      words_eq_singleton (by decide) (List.forall_mem_singleton.mpr (by decide))
    rw [htext, words_append_cons (by decide), words_append_cons (by decide), ha.words_eq,
      hb.words_eq, hdash]
    rfl
  rw [parse_eq_comparatorSet hbar, comparatorSet, words_strip, hwords, if_pos (by simp)]
  rfl

theorem parse_comparisons (ha : IsOperand a) (hb : IsOperand b) :
    parse (">=" ++ a ++ " <=" ++ b) = between a.toList b.toList := by
  have hlower : IsOperand (">=" ++ a) := ha.symbol_append .greaterEqual
  have hupper : IsOperand ("<=" ++ b) := hb.symbol_append .lessEqual
  have htext : (">=" ++ a ++ " <=" ++ b).toList =
      (">=" ++ a).toList ++ ' ' :: ("<=" ++ b).toList := by simp
  have hwords : words (">=" ++ a ++ " <=" ++ b).toList =
      [">=".toList ++ a.toList, "<=".toList ++ b.toList] := by
    rw [htext, words_append_cons (by decide), hlower.words_eq, hupper.words_eq,
      String.toList_append, String.toList_append]
    rfl
  have hset : IsComparatorSet (">=" ++ a ++ " <=" ++ b) := by
    refine ⟨?_, ?_, ?_⟩
    · rw [htext]
      exact not_pair_infix_append_cons (by decide) hlower.bar hupper.bar
    · rw [hwords]
      simp
    · rw [hwords, List.forall_mem_cons, List.forall_mem_singleton]
      exact ⟨isOperator_symbol_append .greaterEqual rfl ha.nonempty,
        isOperator_symbol_append .lessEqual rfl hb.nonempty⟩
  have hmin : comparator (">=".toList ++ a.toList) =
      (fun v => Range.ofConstraints [(.greaterEqual, v)]) <$> version a.toList :=
    comparator_symbol_append .greaterEqual (.inl rfl) ha.nonempty ha.blank
  have hmax : comparator ("<=".toList ++ b.toList) =
      (fun v => Range.ofConstraints [(.lessEqual, v)]) <$> version b.toList :=
    comparator_symbol_append .lessEqual (.inl rfl) hb.nonempty hb.blank
  rw [hset.parse_eq_conjunction, hwords, conjunction, hmin]
  simp only [List.foldlM_cons, List.foldlM_nil, hmax]
  simp [Range.inter_rays_eq, between]

end Npm

/-! ### Native ranges -/

namespace Range

variable {a b : String}

/-- A dash between two words is read just if the operators of the two bounds in front of the words
are, and both texts hold the same versions: those from the one shown by the first word to the one
shown by the second, or none if these are in the wrong order. -/
theorem parseNative_dash [Specifier.Reader] (ha : Npm.IsOperand a) (hb : Npm.IsOperand b) :
    ((∃ r, (parseNative (a ++ " - " ++ b) "npm").run = .ok r) ↔
      ∃ s, (parseNative (">=" ++ a ++ " <=" ++ b) "npm").run = .ok s) ∧
    ∀ r s, (parseNative (a ++ " - " ++ b) "npm").run = .ok r →
      (parseNative (">=" ++ a ++ " <=" ++ b) "npm").run = .ok s →
      (∀ v : Version, r.contains v = s.contains v) ∧
      ∃ min max, (Npm.version a.toList).run = .ok min ∧ (Npm.version b.toList).run = .ok max ∧
        (max < min → r.isEmpty = true ∧ s.isEmpty = true) ∧
        (¬max < min → ∀ v : Version, r.contains v = true ↔ min ≤ v ∧ v ≤ max) := by
  have hdash (r : Range) : (parseNative (a ++ " - " ++ b) "npm").run = .ok r ↔
      (Npm.between a.toList b.toList).run = .ok r := by
    rw [run_parseNative_eq_ok_iff, grammarOf_npm, Npm.parse_dash ha hb]
  have hcomparisons (s : Range) : (parseNative (">=" ++ a ++ " <=" ++ b) "npm").run = .ok s ↔
      (Npm.between a.toList b.toList).run = .ok s := by
    rw [run_parseNative_eq_ok_iff, grammarOf_npm, Npm.parse_comparisons ha hb]
  refine ⟨exists_congr fun r => (hdash r).trans (hcomparisons r).symm, fun r s hr hs => ?_⟩
  rw [hdash] at hr
  rw [hcomparisons] at hs
  obtain rfl : r = s := Except.ok.inj (hr.symm.trans hs)
  obtain ⟨min, max, hmin, hmax, rfl⟩ := Npm.run_between_eq_ok_iff.mp hr
  refine ⟨fun v => rfl, min, max, hmin, hmax, fun hlt => ?_, fun hle v => ?_⟩
  · rw [isEmpty_ofInterval, and_self]
    exact Interval.isEmpty_between_iff.mpr hlt
  · rw [contains_ofInterval, Interval.contains_between_iff, and_iff_right hle]

/-- A mark and a wildcard on the one side, a mark and a prerelease on the other. -/
theorem parseNative_dash_marks :
    let v : Version := .ofComponents { major := 1, minor := some 5 }
    Npm.IsOperand "v1.x" ∧ Npm.IsOperand "=2-rc" ∧
      ∃ r s, (parseNative ("v1.x" ++ " - " ++ "=2-rc") "npm").run = .ok r ∧
        (parseNative (">=" ++ "v1.x" ++ " <=" ++ "=2-rc") "npm").run = .ok s ∧
        r.contains v = true ∧ s.contains v = true := by
  intro v
  have ha : Npm.IsOperand "v1.x" := ⟨by decide, by decide +kernel, by decide +kernel⟩
  have hb : Npm.IsOperand "=2-rc" := ⟨by decide, by decide +kernel, by decide +kernel⟩
  have hread : ∃ r, (parseNative ("v1.x" ++ " - " ++ "=2-rc") "npm").run = .ok r ∧
      r.contains v = true := by
    refine ⟨⟨[⟨{ version := some ⟨{ major := 1, minor := some 0 }, "1.x"⟩ },
      { version := some ⟨{ major := 2, prerelease := some "rc" }, "2-rc"⟩ }⟩]⟩, ?_, ?_⟩
    · decide +kernel
    · decide +kernel
  obtain ⟨r, hr, hrv⟩ := hread
  obtain ⟨hiff, hsame⟩ := parseNative_dash ha hb
  obtain ⟨s, hs⟩ := hiff.mp ⟨r, hr⟩
  exact ⟨ha, hb, r, s, hr, hs, hrv, (hsame r s hr hs).1 v ▸ hrv⟩

end Range

end Versioning
