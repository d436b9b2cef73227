import Versioning.Proofs.Native.Comparators
import Versioning.Proofs.Range.Series

/-! Comparators that stand for a series: caret and tilde ranges, and numbers before a wildcard.
Each is read, and among the stable versions it admits just those of the series that it names. -/

namespace Versioning

/-- The text is read, and the stable versions in its range are those that satisfy `P`. -/
def Range.AdmitsJust [Specifier.Reader] (text scheme : String) (P : Version → Prop) : Prop :=
  ∃ r, (parseNative text scheme).run = .ok r ∧
    ∀ shown v, Version.parse shown = .ok v → v.prerelease = none → (r.contains v = true ↔ P v)

theorem Range.admitsJust_of_run [Specifier.Reader] {text scheme : String} {P : Version → Prop}
    {r : Range}
    (hr : (grammarOf scheme text).run = .ok r)
    (h : ∀ v : Version, v.IsNatural → v.prerelease = none → (r.contains v = true ↔ P v)) :
    AdmitsJust text scheme P :=
  ⟨r, run_parseNative_eq_ok_iff.mpr hr, fun _ v hshown hv =>
    h v (Version.isShown_of_parse hshown).isNatural hv⟩

/-! ### Texts of versions -/

theorem Text.ne_of_isDecimal {c x : Char} (hc : isDecimal c = true) (hx : isDecimal x = false) :
    c ≠ x := by
  rintro rfl
  rw [hc] at hx
  contradiction

theorem Version.exists_first_of_parse {t : String} {w : Version} (h : parse t = .ok w) :
    ∃ c rest, t.toList = c :: rest ∧ Text.isDecimal c = true ∧
      (c :: rest).any Text.isBlank = false := by
  have hcomponents := (parse_eq_ok_iff.mp h).1
  obtain ⟨c, rest, htext, hd⟩ := Components.exists_decimal_of_ofText? hcomponents
  exact ⟨c, rest, htext, hd, htext ▸ Components.not_isBlank_of_ofText? hcomponents⟩

theorem Lookup.run_version_of_parse {t : String} {w : Version} (h : Version.parse t = .ok w) :
    (version t.toList).run = .ok w := by
  rw [run_version, String.ofList_toList, h]

namespace Npm

open Text

variable {text rest : List Char} {c : Char} {v w : Version}

/-! ### Words with a digit -/

/-- The character neither ends a word nor stands between sets of comparators. -/
def IsPlain (c : Char) : Prop := isBlank c = false ∧ c ≠ '|'

instance (c : Char) : Decidable (IsPlain c) := inferInstanceAs (Decidable (_ ∧ _))

theorem isOperator_eq_false (hc : c ∈ text) (hd : isDecimal c = true) :
    isOperator text = false := by
  refine Bool.eq_false_of_not_eq_true fun hop => ?_
  have hnone := of_isOperator (P := (·.any isDecimal = false)) (by decide +kernel) hop
  exact List.any_eq_false.mp hnone c hc hd

/-- A word with a digit in it is a comparator and nothing else. -/
theorem parse_eq_comparator {whole : String} (htext : whole.toList = text)
    (hplain : ∀ c ∈ text, IsPlain c) (hc : c ∈ text) (hd : isDecimal c = true) :
    parse whole = comparator text := by
  subst htext
  have hwords : words whole.toList = [whole.toList] :=
    words_eq_singleton (List.ne_nil_of_mem hc) fun c hc => (hplain c hc).1
  have hset : IsComparatorSet whole := by
    refine ⟨fun hi => (hplain _ (hi.subset (.head _))).2 rfl, ?_, ?_⟩ <;> rw [hwords]
    · rw [List.mem_singleton]
      intro hdash
      exact ne_of_isDecimal hd (by decide) (List.mem_singleton.mp (hdash ▸ hc))
    · exact List.forall_mem_singleton.mpr (isOperator_eq_false hc hd)
  rw [hset.parse_eq_conjunction, hwords, conjunction_singleton]

theorem dropMark_of_isDecimal (hd : isDecimal c = true) : dropMark (c :: rest) = c :: rest := by
  have hv : c ≠ 'v' := ne_of_isDecimal hd (by decide)
  have hV : c ≠ 'V' := ne_of_isDecimal hd (by decide)
  have heq : c ≠ '=' := ne_of_isDecimal hd (by decide)
  cases rest with
  | nil => rfl
  | cons digit rest => simp [dropMark, hv, hV, heq]

theorem run_version_of_parse {t : String} (h : Version.parse t = .ok w) :
    (version t.toList).run = .ok w := by
  obtain ⟨c, rest, htext, hd, -⟩ := Version.exists_first_of_parse h
  rw [version, htext, dropMark_of_isDecimal hd, ← htext]
  exact Lookup.run_version_of_parse h

theorem comparator_caret (rest : List Char) : comparator ('^' :: rest) = caret <$> version rest :=
  rfl

theorem comparator_tilde (hd : isDecimal c = true) :
    comparator ('~' :: c :: rest) = tilde <$> version (c :: rest) := by
  change tilde <$> version ((c :: rest).dropWhile (· == '>')) = _
  rw [List.dropWhile_cons_of_neg (by simpa using ne_of_isDecimal hd (by decide))]

/-- No location starts with a character that lacks what the first characters of locations share. -/
theorem isLocation_eq_false (p : Char → Bool)
    (hp : ∀ start ∈ locationStarts, start.toList.head?.any p = true) (hc : p c = false) :
    isLocation (c :: rest) = false := by
  refine List.any_eq_false.mpr fun start hstart h => ?_
  obtain ⟨after, hafter⟩ := Option.isSome_iff_exists.mp h
  have hhead := hp start hstart
  rw [dropStart?_eq_some_iff] at hafter
  cases hchars : start.toList with
  | nil => simp [hchars] at hhead
  | cons first _ =>
    rw [hchars, List.cons_append] at hafter
    rw [hchars, ← (List.cons.inj hafter).1, List.head?_cons, Option.any_some, hc] at hhead
    contradiction

theorem comparator_of_wildcardRange {r : Range} (hd : c.isDigit = true)
    (h : wildcardRange? (c :: rest) = some r) : comparator (c :: rest) = pure r := by
  have hcaret : c ≠ '^' := ne_of_isDecimal (isDecimal_of_isDigit hd) (by decide)
  have htilde : c ≠ '~' := ne_of_isDecimal (isDecimal_of_isDigit hd) (by decide)
  have hlocation : isLocation (c :: rest) = false :=
    isLocation_eq_false (!·.isDigit) (by decide +kernel) (by simp [hd])
  rw [comparator, if_neg (by simp [hlocation]), h]
  · exact fun _ heq => hcaret (List.cons.inj heq).1
  · exact fun _ heq => htilde (List.cons.inj heq).1

/-! ### Numbers before a wildcard -/

variable {major minor wildcard : List Char}

theorem isWildcard_eq_false (h : isNumeric text = true) : isWildcard text = false := by
  refine Bool.eq_false_of_not_eq_true fun hw => ?_
  simp only [isWildcard, Bool.or_eq_true, beq_iff_eq] at hw
  obtain (rfl | rfl) | rfl := hw <;> contradiction

theorem dot_not_mem_of_isWildcard (h : isWildcard text = true) : '.' ∉ text := by
  simp only [isWildcard, Bool.or_eq_true, beq_iff_eq] at h
  obtain (rfl | rfl) | rfl := h <;> decide

theorem wildcardRange?_major (hmajor : isNumeric major = true) (hw : isWildcard wildcard = true) :
    wildcardRange? (major ++ '.' :: wildcard) =
      some (.series (.ofRelease ⟨numeral major, 0, 0⟩) .major) := by
  have hparts : (major ++ '.' :: wildcard).splitOn '.' = [major, wildcard] := by
    rw [List.splitOn_append_cons_self, List.splitOn_eq_singleton (not_mem_of_isNumeric hmajor rfl),
      List.splitOn_eq_singleton (dot_not_mem_of_isWildcard hw), List.singleton_append]
  simp [wildcardRange?, hparts, isWildcard_eq_false hmajor, hw, hmajor]

theorem wildcardRange?_minor (hmajor : isNumeric major = true) (hminor : isNumeric minor = true)
    (hw : isWildcard wildcard = true) :
    wildcardRange? (major ++ '.' :: (minor ++ '.' :: wildcard)) =
      some (.series (.ofRelease ⟨numeral major, numeral minor, 0⟩) .minor) := by
  have hparts : (major ++ '.' :: (minor ++ '.' :: wildcard)).splitOn '.' =
      [major, minor, wildcard] := by
    rw [List.splitOn_append_cons_self, List.splitOn_append_cons_self,
      List.splitOn_eq_singleton (not_mem_of_isNumeric hmajor rfl),
      List.splitOn_eq_singleton (not_mem_of_isNumeric hminor rfl),
      List.splitOn_eq_singleton (dot_not_mem_of_isWildcard hw), List.singleton_append,
      List.singleton_append]
  simp [wildcardRange?, hparts, isWildcard_eq_false hmajor, isWildcard_eq_false hminor, hw, hmajor,
    hminor]

theorem isPlain_of_isNumeric (h : isNumeric text = true) : ∀ c ∈ text, IsPlain c := by
  intro c hc
  have hd := isDigit_of_isNumeric h c hc
  refine ⟨isBlank_eq_false_of_isDigit hd, ?_⟩
  rintro rfl
  contradiction

theorem isPlain_of_isWildcard (h : isWildcard text = true) : ∀ c ∈ text, IsPlain c := by
  simp only [isWildcard, Bool.or_eq_true, beq_iff_eq] at h
  obtain (rfl | rfl) | rfl := h <;> exact List.forall_mem_singleton.mpr (by decide)

theorem parse_of_wildcardRange {r : Range} (hmajor : isNumeric major = true)
    (hplain : ∀ c ∈ rest, IsPlain c) (h : wildcardRange? (major ++ rest) = some r) :
    parse (String.ofList (major ++ rest)) = pure r := by
  have hall : ∀ c ∈ major ++ rest, IsPlain c :=
    List.forall_mem_append.mpr ⟨isPlain_of_isNumeric hmajor, hplain⟩
  cases major with
  | nil => contradiction
  | cons first major =>
    have hd := isDigit_of_isNumeric hmajor first (.head _)
    rw [parse_eq_comparator String.toList_ofList hall (.head _) (isDecimal_of_isDigit hd)]
    exact comparator_of_wildcardRange hd h

theorem parse_wildcard_major (hmajor : isNumeric major = true) (hw : isWildcard wildcard = true) :
    parse (String.ofList (major ++ '.' :: wildcard)) =
      pure (.series (.ofRelease ⟨numeral major, 0, 0⟩) .major) :=
  parse_of_wildcardRange hmajor (List.forall_mem_cons.mpr ⟨by decide, isPlain_of_isWildcard hw⟩)
    (wildcardRange?_major hmajor hw)

theorem parse_wildcard_minor (hmajor : isNumeric major = true) (hminor : isNumeric minor = true)
    (hw : isWildcard wildcard = true) :
    parse (String.ofList (major ++ '.' :: (minor ++ '.' :: wildcard))) =
      pure (.series (.ofRelease ⟨numeral major, numeral minor, 0⟩) .minor) := by
  refine parse_of_wildcardRange hmajor ?_ (wildcardRange?_minor hmajor hminor hw)
  have hdot : IsPlain '.' := by decide
  exact List.forall_mem_cons.mpr ⟨hdot, List.forall_mem_append.mpr
    ⟨isPlain_of_isNumeric hminor, List.forall_mem_cons.mpr ⟨hdot, isPlain_of_isWildcard hw⟩⟩⟩

/-! ### A mark in front of a version -/

section Marked

variable {t : String} {w : Version} (h : Version.parse t = .ok w) (hbar : '|' ∉ t.toList)

include h hbar

/-- The text of a version goes on as a word, with a digit in it. -/
theorem parse_marked {mark : String} (hmark : mark.toList = [c]) (hc : IsPlain c) :
    parse (mark ++ t) = comparator (c :: t.toList) := by
  obtain ⟨first, rest, htext, hd, hblank⟩ := Version.exists_first_of_parse h
  have hplain : ∀ x ∈ t.toList, IsPlain x := fun x hx =>
    ⟨by simpa using List.any_eq_false.mp hblank x (htext ▸ hx), fun hx' => hbar (hx' ▸ hx)⟩
  have hfirst : first ∈ c :: t.toList := .tail _ (htext ▸ .head rest)
  refine parse_eq_comparator ?_ (List.forall_mem_cons.mpr ⟨hc, hplain⟩) hfirst hd
  rw [String.toList_append, hmark, List.singleton_append]

theorem run_parse_caret : (parse ("^" ++ t)).run = .ok (caret w) := by
  have hparse : parse ("^" ++ t) = comparator ('^' :: t.toList) :=
    parse_marked h hbar rfl (by decide)
  rw [hparse, comparator_caret]
  exact Lookup.run_map_eq_ok_iff.mpr ⟨w, run_version_of_parse h, rfl⟩

theorem run_parse_tilde : (parse ("~" ++ t)).run = .ok (tilde w) := by
  obtain ⟨first, rest, htext, hd, -⟩ := Version.exists_first_of_parse h
  have hparse : parse ("~" ++ t) = comparator ('~' :: t.toList) :=
    parse_marked h hbar rfl (by decide)
  rw [hparse, htext, comparator_tilde hd, ← htext]
  exact Lookup.run_map_eq_ok_iff.mpr ⟨w, run_version_of_parse h, rfl⟩

end Marked

end Npm

/-! ### Series by the name of the ecosystem -/

namespace Range

open Text

variable {t : String} {v w : Version}

theorem contains_caret_iff (hw : w.IsNatural) (hn : v.IsNatural) (hv : v.prerelease = none) :
    (Npm.caret w).contains v = true ↔ w ≤ v ∧ v.AgreesOn w.release.leading w := by
  obtain ⟨major, minor, patch, hrelease⟩ := hw.exists_release
  rw [Npm.caret, contains_series_iff hn hv, Version.AgreesOn, Version.AgreesOn, hrelease,
    Release.take_leading, Release.take_leading]
  simp only [Int.natCast_pos]

theorem contains_tilde_iff (hn : v.IsNatural) (hv : v.prerelease = none) :
    (Npm.tilde w).contains v = true ↔ w ≤ v ∧ v.AgreesOn (if w.minor.isSome then 2 else 1) w := by
  rw [Npm.tilde, contains_series_iff hn hv]
  split <;> rfl

/-- Caret and tilde ranges hold just the stable versions that are no lower than the version behind
the mark and have the same leading numbers: up to the first one that is not zero behind a caret, and
the major and any minor number behind a tilde.  A wildcard behind numbers holds those with the
numbers. -/
theorem admitsJust_comparator [Specifier.Reader] :
    (∀ (t : String) (w : Version), Version.parse t = .ok w → '|' ∉ t.toList →
      AdmitsJust ("^" ++ t) "npm" (fun v => w ≤ v ∧ v.AgreesOn w.release.leading w) ∧
      AdmitsJust ("~" ++ t) "npm" fun v =>
        w ≤ v ∧ v.AgreesOn (if w.minor.isSome then 2 else 1) w) ∧
    ∀ major wildcard : List Char, isNumeric major = true → Npm.isWildcard wildcard = true →
      AdmitsJust (String.ofList (major ++ '.' :: wildcard)) "npm"
        (fun v => v.release.major = numeral major) ∧
      ∀ minor, isNumeric minor = true →
        AdmitsJust (String.ofList (major ++ '.' :: (minor ++ '.' :: wildcard))) "npm"
          fun v => v.release.major = numeral major ∧ v.release.minor = numeral minor := by
  constructor
  · intro t w h hbar
    have hw := (Version.isShown_of_parse h).isNatural
    have hcaret := Npm.run_parse_caret h hbar
    have htilde := Npm.run_parse_tilde h hbar
    rw [← grammarOf_npm] at hcaret htilde
    exact ⟨admitsJust_of_run hcaret fun v hn hv => contains_caret_iff hw hn hv,
      admitsJust_of_run htilde fun v hn hv => contains_tilde_iff hn hv⟩
  · intro major wildcard hmajor hw
    constructor
    · have hparse := Npm.parse_wildcard_major hmajor hw
      rw [← grammarOf_npm] at hparse
      refine admitsJust_of_run (congrArg Lookup.run hparse) fun v hn hv => ?_
      rw [contains_series_ofRelease_iff hn hv (by simp [Release.numbers, Component.count])]
      simp [Version.AgreesOn, Release.numbers, Component.count]
    · intro minor hminor
      have hparse := Npm.parse_wildcard_minor hmajor hminor hw
      rw [← grammarOf_npm] at hparse
      refine admitsJust_of_run (congrArg Lookup.run hparse) fun v hn hv => ?_
      rw [contains_series_ofRelease_iff hn hv (by simp [Release.numbers, Component.count])]
      simp [Version.AgreesOn, Release.numbers, Component.count]

/-- From a prerelease up to the next minor number, and numbers with a zero in front before a
wildcard. -/
theorem admitsJust_comparator_zeros :
    let w : Version :=
      .ofComponents { major := 0, minor := some 2, patch := some 0, prerelease := some "rc.1" }
    let v (minor patch : Nat) : Version := .ofRelease ⟨0, minor, patch⟩
    Version.parse "0.2.0-rc.1" = .ok w ∧
      (∃ r, (parseNative "^0.2.0-rc.1" "npm").run = .ok r ∧ r.contains (v 2 7) = true ∧
        r.contains (v 3 0) = false) ∧
      (∃ r, (parseNative "~0.2.0-rc.1" "npm").run = .ok r ∧ r.contains (v 2 0) = true) ∧
      ∃ r, (parseNative "00.02.X" "npm").run = .ok r ∧ r.contains (v 2 7) = true ∧
        r.contains (v 3 0) = false := by
  intro w v
  have hparse : Version.parse "0.2.0-rc.1" = .ok w := by decide +kernel
  have hv (minor patch : Nat) : Version.parse (v minor patch).text = .ok (v minor patch) :=
    Version.isShown_ofRelease 0 minor patch
  obtain ⟨⟨r, hr, hcaret⟩, ⟨s, hs, htilde⟩⟩ :=
    admitsJust_comparator.1 "0.2.0-rc.1" w hparse (by decide +kernel)
  obtain ⟨q, hq, hwildcard⟩ := (admitsJust_comparator.2 ['0', '0'] ['X'] (by decide +kernel)
    (by decide +kernel)).2 ['0', '2'] (by decide +kernel)
  refine ⟨hparse, ⟨r, hr, ?_, ?_⟩, ⟨s, hs, ?_⟩, ⟨q, hq, ?_, ?_⟩⟩
  · exact (hcaret _ _ (hv 2 7) rfl).mpr (by decide +kernel)
  · exact Bool.eq_false_of_not_eq_true fun h =>
      absurd ((hcaret _ _ (hv 3 0) rfl).mp h) (by decide +kernel)
  · exact (htilde _ _ (hv 2 0) rfl).mpr (by decide +kernel)
  · exact (hwildcard _ _ (hv 2 7) rfl).mpr (by decide +kernel)
  · exact Bool.eq_false_of_not_eq_true fun h =>
      absurd ((hwildcard _ _ (hv 3 0) rfl).mp h) (by decide +kernel)

end Range

end Versioning
