import Versioning.Proofs.Native.Series
import Versioning.Proofs.Version.Pieces

/-! Carets and tildes in front of numbers that are left out or written as a wildcard.  A wildcard is
no number, so that a text with one is read by its pieces, where it counts as zero.  A tilde knows a
missing number from a zero but not a wildcard; a caret knows neither. -/

namespace Versioning

open Text

/-- The parts with dots between them. -/
def dotted (parts : List (List Char)) : String := String.ofList (['.'].intercalate parts)

/-! ### Versions of numbers and wildcards -/

namespace Components

variable {major minor wildcard digits : List Char}

theorem leadingNumber_of_isNumeric (h : isNumeric digits = true) :
    leadingNumber digits = numeral digits := by
  rw [leadingNumber, List.takeWhile_eq_self_iff.mpr (isDigit_of_isNumeric h)]

/-- Behind a dot, neither a number nor any other part of the shape starts with a wildcard. -/
theorem parts_of_isWildcard (hw : Npm.isWildcard wildcard = true) :
    dottedNumber ('.' :: wildcard) = (none, '.' :: wildcard) ∧
      leadingNumber wildcard = 0 ∧ looseTail [wildcard] = (some 0, none) ∧ '-' ∉ wildcard := by
  simp only [Npm.isWildcard, Bool.or_eq_true, beq_iff_eq] at hw
  obtain (rfl | rfl) | rfl := hw <;> decide

theorem ofShape?_wildcard (hmajor : isNumeric major = true) {minor : Option (List Char)}
    (hminor : ∀ digits ∈ minor, isNumeric digits = true) (hw : Npm.isWildcard wildcard = true) :
    ofShape? (major ++ (marked '.' minor ++ '.' :: wildcard)) = none := by
  have hdot : ('.' :: wildcard).head?.all (!isDecimal ·) = true := by
    rw [List.head?_cons, Option.all_some]
    decide
  have hwildcard := (parts_of_isWildcard hw).1
  have hrest : ∃ number, dottedNumber (marked '.' minor ++ '.' :: wildcard) =
      (number, '.' :: wildcard) := by
    cases minor with
    | none => exact ⟨none, hwildcard⟩
    | some digits =>
      refine ⟨_, dottedNumber_marked (fun d hd => isNumber_of_isNumeric (hminor d hd)) hdot ?_⟩
      exact nofun
  obtain ⟨number, hrest⟩ := hrest
  have hhead : (marked '.' minor ++ '.' :: wildcard).head?.all (!isDecimal ·) = true :=
    head?_marked_append hdot
  obtain ⟨htake, hdrop⟩ := takeWhile_number (isNumber_of_isNumeric hmajor) hhead
  simp only [ofShape?, htake, hdrop, hrest, hwildcard]
  split
  · rfl
  · rfl

/-- A text that has not the shape is read by its pieces. -/
theorem ofText?_of_pieces {text : List Char} {c : Components} (hb : text.any isBlank = false)
    (hshape : ofShape? text = none) (hpieces : ofPieces? text = some c) :
    ofText? text = some c := by
  rw [ofText?, if_neg (by simp [hb]), hshape, hpieces]
  rfl

end Components

namespace Version

open Components

section Dotted

variable {parts : List (List Char)}
  (h : ∀ part ∈ parts, isNumeric part = true ∨ Npm.isWildcard part = true)

include h

theorem not_isBlank_dotted :
    (dotted parts).toList.any isBlank = false ∧ '|' ∉ (dotted parts).toList := by
  have hplain : ∀ c ∈ (dotted parts).toList, Npm.IsPlain c := by
    rw [dotted, String.toList_ofList]
    refine forall_mem_intercalate (by decide) fun part hpart => ?_
    exact (h part hpart).elim Npm.isPlain_of_isNumeric Npm.isPlain_of_isWildcard
  exact ⟨List.any_eq_false.mpr fun c hc => by simp [(hplain c hc).1],
    fun hbar => (hplain _ hbar).2 rfl⟩

theorem splitOn_dotted (hne : parts ≠ []) : (dotted parts).toList.splitOn '.' = parts := by
  rw [dotted, String.toList_ofList]
  refine List.splitOn_intercalate '.' (fun part hpart => ?_) hne
  exact (h part hpart).elim (not_mem_of_isNumeric · rfl) Npm.dot_not_mem_of_isWildcard

end Dotted

theorem toList_dotted_wildcard (major wildcard : List Char) (minor : Option (List Char)) :
    (dotted (major :: (minor.toList ++ [wildcard]))).toList =
      major ++ (marked '.' minor ++ '.' :: wildcard) := by
  cases minor <;> simp [dotted, marked, List.intercalate]

variable {major wildcard : List Char} (minor : Option (List Char))
  (hmajor : isNumeric major = true) (hminor : ∀ digits ∈ minor, isNumeric digits = true)

include hmajor hminor

theorem parse_numbers : parse (dotted (major :: minor.toList)) =
    .ok { major := numeral major, minor := minor.map fun digits => (numeral digits : Int),
          text := dotted (major :: minor.toList) } := by
  let s : Shape :=
    { major, minor, isNumber_major := isNumber_of_isNumeric hmajor
      isNumber_minor := fun d hd => isNumber_of_isNumeric (hminor d hd)
      isNumber_patch := by simp, patch_eq_none := fun _ => rfl, isPrerelease := by simp
      isBuild := by simp }
  have htext : (dotted (major :: minor.toList)).toList = s.text := by
    cases minor <;>
      simp [s, dotted, Shape.text, Shape.numbers, Shape.tail, marked, List.intercalate]
  have hparts : ∀ part ∈ major :: minor.toList,
      isNumeric part = true ∨ Npm.isWildcard part = true := by
    simpa [hmajor] using fun d hd => Or.inl (hminor d hd)
  have hcomponents : ofText? (dotted (major :: minor.toList)).toList = some s.components := by
    have hblank := (not_isBlank_dotted hparts).1
    rw [htext] at hblank ⊢
    exact ofText?_shape hblank
  exact parse_eq_ok_iff.mpr ⟨hcomponents, rfl⟩

/-- A wildcard is read as a zero. -/
theorem parse_wildcard (hw : Npm.isWildcard wildcard = true) :
    parse (dotted (major :: (minor.toList ++ [wildcard]))) =
      .ok { major := numeral major, minor := some (minor.elim 0 numeral : Nat),
            patch := minor.map fun _ => 0,
            text := dotted (major :: (minor.toList ++ [wildcard])) } := by
  obtain ⟨-, hzero, htail, hdash⟩ := parts_of_isWildcard hw
  have hparts : ∀ part ∈ major :: (minor.toList ++ [wildcard]),
      isNumeric part = true ∨ Npm.isWildcard part = true := by
    refine List.forall_mem_cons.mpr ⟨.inl hmajor, List.forall_mem_append.mpr ⟨fun d hd => ?_, ?_⟩⟩
    · exact .inl (hminor d (Option.mem_toList.mp hd))
    · exact List.forall_mem_singleton.mpr (.inr hw)
  have hsplit := splitOn_dotted hparts (List.cons_ne_nil _ _)
  have hblank := (not_isBlank_dotted hparts).1
  rw [toList_dotted_wildcard] at hsplit hblank
  have hhead : (major ++ (marked '.' minor ++ '.' :: wildcard)).head?.any Char.isDigit = true :=
    head?_append_any (head?_isDigit_of_isNumeric hmajor) _
  have hleading : leadingNumber (major ++ (marked '.' minor ++ '.' :: wildcard)) =
      numeral major := by
    rw [← leadingNumber_of_isNumeric hmajor]
    cases minor <;> exact leadingNumber_append_cons rfl
  refine parse_eq_ok_iff.mpr ⟨?_, rfl⟩
  rw [toList_dotted_wildcard]
  refine ofText?_of_pieces hblank (ofShape?_wildcard hmajor hminor hw) ?_
  cases minor with
  | none =>
    rw [ofPieces?_of_splitOn hhead hsplit, hleading]
    simp [hzero, hdash, looseTail]
  | some digits =>
    have hdigits := hminor digits rfl
    have hdash : '-' ∉ digits := not_mem_of_isNumeric hdigits rfl
    rw [ofPieces?_of_splitOn hhead hsplit, hleading, leadingNumber_of_isNumeric hdigits]
    simp [hdash, htail]

end Version

/-! ### Texts for the same versions -/

namespace Range

/-- Both texts are read, and their ranges hold the same versions. -/
def Alike [Specifier.Reader] (scheme text text' : String) : Prop :=
  ∃ r r', (parseNative text scheme).run = .ok r ∧ (parseNative text' scheme).run = .ok r' ∧
    ∀ v, r.contains v = r'.contains v

theorem alike_of_series [Specifier.Reader] {text text' : String} {component : Component}
    {u w : Version}
    (hrelease : u.release = w.release) (hidentifiers : u.identifiers = w.identifiers)
    (hu : (Npm.parse text).run = .ok (series u component))
    (hw : (Npm.parse text').run = .ok (series w component)) : Alike "npm" text text' := by
  rw [← grammarOf_npm] at hu hw
  exact ⟨_, _, run_parseNative_eq_ok_iff.mpr hu, run_parseNative_eq_ok_iff.mpr hw,
    contains_series_congr hrelease hidentifiers⟩

section Wildcard

variable {parts : List (List Char)} {major minor wildcard wildcard' : List Char} {w : Version}

theorem run_parse_major (hmajor : isNumeric major = true) (hw : Npm.isWildcard wildcard = true) :
    (Npm.parse (dotted [major, wildcard])).run =
      .ok (series (.ofRelease ⟨numeral major, 0, 0⟩) .major) := by
  have htext : dotted [major, wildcard] = String.ofList (major ++ '.' :: wildcard) := by
    simp [dotted, List.intercalate]
  rw [htext, Npm.parse_wildcard_major hmajor hw]
  rfl

theorem run_parse_minor (hmajor : isNumeric major = true) (hminor : isNumeric minor = true)
    (hw : Npm.isWildcard wildcard = true) :
    (Npm.parse (dotted [major, minor, wildcard])).run =
      .ok (series (.ofRelease ⟨numeral major, numeral minor, 0⟩) .minor) := by
  have htext : dotted [major, minor, wildcard] =
      String.ofList (major ++ '.' :: (minor ++ '.' :: wildcard)) := by
    simp [dotted, List.intercalate]
  rw [htext, Npm.parse_wildcard_minor hmajor hminor hw]
  rfl

/-- A caret before a major number, or before one and a zero. -/
theorem alike_caret [Specifier.Reader] (hmajor : isNumeric major = true)
    (hw : Npm.isWildcard wildcard = true) (h : Version.parse (dotted parts) = .ok w)
    (hbar : '|' ∉ (dotted parts).toList)
    (hrelease : w.release = ⟨numeral major, 0, 0⟩) (hidentifiers : w.identifiers = none) :
    (0 < numeral major → Alike "npm" ("^" ++ dotted parts) (dotted [major, wildcard])) ∧
      (numeral major = 0 → Alike "npm" ("^" ++ dotted parts) "^0.0.0") := by
  have hcaret := Npm.run_parse_caret h hbar
  rw [Npm.caret, hrelease] at hcaret
  constructor
  · intro hpos
    rw [if_pos (Int.natCast_pos.mpr hpos)] at hcaret
    exact alike_of_series hrelease hidentifiers hcaret (run_parse_major hmajor hw)
  · intro hzero
    rw [hzero] at hcaret hrelease
    have hzeros : Version.parse "0.0.0" = .ok (.ofRelease ⟨0, 0, 0⟩) := by decide +kernel
    exact alike_of_series hrelease hidentifiers hcaret
      (Npm.run_parse_caret hzeros (by decide +kernel))

/-- A tilde before a version whose series is that of another text. -/
theorem alike_tilde [Specifier.Reader] {text : String} {r : Release} {component : Component}
    (h : Version.parse (dotted parts) = .ok w) (hbar : '|' ∉ (dotted parts).toList)
    (hcomponent : (if w.minor.isSome then Component.minor else .major) = component)
    (hrelease : w.release = r) (hidentifiers : w.identifiers = none)
    (hrun : (Npm.parse text).run = .ok (series (.ofRelease r) component)) :
    Alike "npm" ("~" ++ dotted parts) text := by
  have htilde := Npm.run_parse_tilde h hbar
  rw [Npm.tilde, hcomponent] at htilde
  exact alike_of_series hrelease hidentifiers htilde hrun

/-- Behind a caret, a minor number that is missing or a wildcard stands for any number if the major
number is not zero, and else for zero.  Behind a tilde, a missing minor or patch number stands for
any number, and so does a wildcard for the patch number; one for the minor number stands for
zero. -/
theorem alike_wildcard [Specifier.Reader] (hmajor : isNumeric major = true)
    (hw : Npm.isWildcard wildcard = true) (hw' : Npm.isWildcard wildcard' = true) :
    (0 < numeral major →
      Alike "npm" ("^" ++ dotted [major]) (dotted [major, wildcard']) ∧
      Alike "npm" ("^" ++ dotted [major, wildcard]) (dotted [major, wildcard'])) ∧
    (numeral major = 0 →
      Alike "npm" ("^" ++ dotted [major]) "^0.0.0" ∧
      Alike "npm" ("^" ++ dotted [major, wildcard]) "^0.0.0") ∧
    Alike "npm" ("~" ++ dotted [major]) (dotted [major, wildcard']) ∧
    Alike "npm" ("~" ++ dotted [major, wildcard]) (dotted [major, ['0'], wildcard']) ∧
    ∀ minor, isNumeric minor = true →
      Alike "npm" ("~" ++ dotted [major, minor]) (dotted [major, minor, wildcard']) ∧
      Alike "npm" ("~" ++ dotted [major, minor, wildcard]) (dotted [major, minor, wildcard']) := by
  have hbar {parts : List (List Char)}
      (hparts : ∀ part ∈ parts, isNumeric part = true ∨ Npm.isWildcard part = true) :
      '|' ∉ (dotted parts).toList := (Version.not_isBlank_dotted hparts).2
  have hone := Version.parse_numbers none hmajor (by simp)
  have hbarOne : '|' ∉ (dotted [major]).toList := hbar (by simp [hmajor])
  have htwo := Version.parse_wildcard none hmajor (by simp) hw
  have hbarTwo : '|' ∉ (dotted [major, wildcard]).toList := hbar (by simp [hmajor, hw])
  have hcaretOne := alike_caret hmajor hw' hone hbarOne rfl rfl
  have hcaretTwo := alike_caret hmajor hw' htwo hbarTwo rfl rfl
  refine ⟨fun hpos => ⟨hcaretOne.1 hpos, hcaretTwo.1 hpos⟩,
    fun hzero => ⟨hcaretOne.2 hzero, hcaretTwo.2 hzero⟩, ?_, ?_, fun minor hminor => ⟨?_, ?_⟩⟩
  · exact alike_tilde hone hbarOne rfl rfl rfl (run_parse_major hmajor hw')
  · have hzero : isNumeric ['0'] = true := by decide
    exact alike_tilde htwo hbarTwo rfl rfl rfl (run_parse_minor hmajor hzero hw')
  · have h := Version.parse_numbers (some minor) hmajor (by simpa using hminor)
    exact alike_tilde h (hbar (by simp [hmajor, hminor])) rfl rfl rfl
      (run_parse_minor hmajor hminor hw')
  · have h := Version.parse_wildcard (some minor) hmajor (by simpa using hminor) hw
    exact alike_tilde h (hbar (by simp [hmajor, hminor, hw])) rfl rfl rfl
      (run_parse_minor hmajor hminor hw')

/-- With the major numbers `01` and `0`, and wildcards of all three kinds. -/
theorem alike_wildcard_zeros :
    (Alike "npm" ("^" ++ dotted [['0', '1']]) (dotted [['0', '1'], ['*']]) ∧
      Alike "npm" ("^" ++ dotted [['0', '1'], ['x']]) (dotted [['0', '1'], ['*']])) ∧
    (Alike "npm" ("^" ++ dotted [['0']]) "^0.0.0" ∧
      Alike "npm" ("^" ++ dotted [['0'], ['X']]) "^0.0.0") ∧
    Alike "npm" ("~" ++ dotted [['0']]) (dotted [['0'], ['X']]) ∧
    Alike "npm" ("~" ++ dotted [['0', '1'], ['x']]) (dotted [['0', '1'], ['0'], ['*']]) ∧
    Alike "npm" ("~" ++ dotted [['0'], ['2'], ['X']]) (dotted [['0'], ['2'], ['X']]) := by
  obtain ⟨hcaret, -, -, htilde, -⟩ := alike_wildcard (show isNumeric ['0', '1'] = true by decide)
    (show Npm.isWildcard ['x'] = true by decide) (show Npm.isWildcard ['*'] = true by decide)
  obtain ⟨-, hzero, hmissing, -, hminor⟩ := alike_wildcard (show isNumeric ['0'] = true by decide)
    (show Npm.isWildcard ['X'] = true by decide) (show Npm.isWildcard ['X'] = true by decide)
  exact ⟨hcaret (by decide), hzero (by decide), hmissing, htilde, (hminor ['2'] (by decide)).2⟩

/-- A tilde takes the wildcard in `1.x` for a zero, so that `1.5.0` is left out, and a caret the
missing minor number of `0`, so that `0.5.0` is. -/
theorem exists_wildcard_not_any :
    let v (major minor : Nat) : Version := .ofRelease ⟨major, minor, 0⟩
    let holds (text : String) (v : Version) : Option Bool :=
      ((parseNative text "npm").run.map (·.contains v)).toOption
    (Version.parse "1.5.0" = .ok (v 1 5) ∧ holds "1.x" (v 1 5) = some true ∧
      holds "~1.x" (v 1 5) = some false) ∧
    Version.parse "0.5.0" = .ok (v 0 5) ∧ holds "0.x" (v 0 5) = some true ∧
      holds "^0" (v 0 5) = some false ∧ holds "^0.x" (v 0 5) = some false := by
  decide +kernel

end Wildcard

end Range

end Versioning
