import Mathlib.Data.List.Basic
import Versioning.Proofs.Version.Shape
import Versioning.Version.Series

/-! Versions and the texts that show them.  A text that shows a version has no blank in it and
starts with a digit.  Reading keeps the text, so that a version that was read is what its text
shows; and so is the first version of any series, whose text was made from its numbers. -/

namespace Versioning

namespace Text

variable {c : Char} {digits : List Char}

theorem digitValue?_of_isDigit (h : c.isDigit = true) :
    digitValue? c = some (c.toNat - '0'.toNat) := by
  obtain ⟨hlow, hhigh⟩ := Char.isDigit_iff_toNat.mp h
  have hfirst : (decide ('0'.toNat ≤ c.toNat) && decide (c.toNat < '0'.toNat + 10)) = true := by
    have : '9'.toNat < '0'.toNat + 10 := by decide
    simp only [Bool.and_eq_true, decide_eq_true_eq]
    omega
  have hzeros : zeros = '0'.toNat :: zeros.tail := rfl
  rw [digitValue?, hzeros, List.find?_cons]
  simp only [hfirst, Option.map_some]

theorem isDecimal_of_isDigit (h : c.isDigit = true) : isDecimal c = true := by
  rw [isDecimal, digitValue?_of_isDigit h, Option.isSome_some]

theorem isDigit_of_isNumeric (h : isNumeric digits = true) : ∀ c ∈ digits, c.isDigit = true :=
  List.all_eq_true.mp (Bool.and_eq_true_iff.mp h).2

theorem not_mem_of_isNumeric (h : isNumeric digits = true) (hc : c.isDigit = false) :
    c ∉ digits := fun hmem => by
  rw [isDigit_of_isNumeric h c hmem] at hc
  contradiction

theorem head?_isDigit_of_isNumeric (h : isNumeric digits = true) :
    digits.head?.any Char.isDigit = true := by
  cases digits with
  | nil => contradiction
  | cons first rest => exact isDigit_of_isNumeric h first (.head rest)

theorem isNumber_of_isNumeric (h : isNumeric digits = true) : IsNumber digits :=
  ⟨by simpa using (Bool.and_eq_true_iff.mp h).1,
    fun c hc => isDecimal_of_isDigit (isDigit_of_isNumeric h c hc)⟩

theorem isBlank_eq_false_of_isAlphanum (h : c.isAlphanum = true) : isBlank c = false := by
  have hupper (h : c.isUpper = true) : 0x41 ≤ c.toNat ∧ c.toNat ≤ 0x5A := of_decide_eq_true h
  have hlower (h : c.isLower = true) : 0x61 ≤ c.toNat ∧ c.toNat ≤ 0x7A :=
    (Bool.and_eq_true_iff.mp h).imp of_decide_eq_true of_decide_eq_true
  have hdigit (h : c.isDigit = true) : 0x30 ≤ c.toNat ∧ c.toNat ≤ 0x39 :=
    Char.isDigit_iff_toNat.mp h
  -- All of them lie between the ASCII blank and the ASCII controls that follow.
  have hrange : 0x20 < c.toNat ∧ c.toNat < 0x85 := by
    rcases Bool.or_eq_true_iff.mp h with h | h
    · rcases Bool.or_eq_true_iff.mp h with h | h
      · have hcode := hupper h
        omega
      · have hcode := hlower h
        omega
    · have hcode := hdigit h
      omega
  simp only [isBlank, Spans.covers, blanks, List.any_cons, List.any_nil, Bool.or_false,
    Bool.or_eq_false_iff, Bool.and_eq_false_iff, decide_eq_false_iff_not]
  omega

theorem isBlank_eq_false_of_isDigit (h : c.isDigit = true) : isBlank c = false :=
  isBlank_eq_false_of_isAlphanum (by simp [Char.isAlphanum, h])

theorem isDigit_of_mem_toDigits {n : Nat} (h : c ∈ Nat.toDigits 10 n) : c.isDigit = true :=
  Nat.isDigit_of_mem_toDigits (by decide) (by decide) h

theorem numeral_toDigits (n : Nat) : numeral (Nat.toDigits 10 n) = n := by
  have hfold : numeral (Nat.toDigits 10 n) = Nat.ofDigitChars 10 (Nat.toDigits 10 n) 0 := by
    rw [Nat.ofDigitChars_eq_foldl]
    refine List.foldl_ext _ _ _ fun value c hc => ?_
    rw [digitValue?_of_isDigit (isDigit_of_mem_toDigits hc), Option.getD_some]
  rw [hfold, Nat.ofDigitChars_ten_toDigits]

theorem isNumber_toDigits (n : Nat) : IsNumber (Nat.toDigits 10 n) :=
  ⟨Nat.toDigits_ne_nil, fun _ hc => isDecimal_of_isDigit (isDigit_of_mem_toDigits hc)⟩

theorem not_isBlank_toDigits (n : Nat) : (Nat.toDigits 10 n).any isBlank = false :=
  List.any_eq_false.mpr fun c hc => by
    simp [isBlank_eq_false_of_isDigit (isDigit_of_mem_toDigits hc)]

end Text

namespace Components

variable {text : List Char} {c : Components}

theorem not_isBlank_of_ofText? (h : ofText? text = some c) : text.any Text.isBlank = false := by
  unfold ofText? at h
  split at h
  next => contradiction
  next hb => exact Bool.eq_false_iff.mpr hb

theorem ofText?_cases (h : ofText? text = some c) :
    ofShape? text = some c ∨ ofPieces? text = some c := by
  unfold ofText? at h
  split at h
  next => contradiction
  next =>
    rcases Option.or_eq_some_iff.mp h with h | ⟨_, h⟩
    · exact .inl h
    · exact .inr h

theorem exists_decimal_of_ofText? (h : ofText? text = some c) :
    ∃ first rest, text = first :: rest ∧ Text.isDecimal first = true := by
  rcases ofText?_cases h with h | h
  · unfold ofShape? at h
    cases text with
    | nil => simp at h
    | cons first rest =>
      refine ⟨first, rest, rfl, ?_⟩
      by_contra hd
      simp [List.takeWhile_cons_of_neg hd] at h
  · unfold ofPieces? at h
    cases text with
    | nil => simp at h
    | cons first rest =>
      refine ⟨first, rest, rfl, Text.isDecimal_of_isDigit ?_⟩
      by_contra hd
      simp [hd] at h

/-! ### Numbers -/

/-- None of the numbers is negative. -/
def IsNatural (c : Components) : Prop :=
  0 ≤ c.major ∧ (∀ n ∈ c.minor, 0 ≤ n) ∧ ∀ n ∈ c.patch, 0 ≤ n

/-- Digits write all the numbers, those that are missing too. -/
theorem IsNatural.exists_release (h : c.IsNatural) :
    ∃ major minor patch : Nat, c.release = ⟨major, minor, patch⟩ := by
  obtain ⟨hmajor, hminor, hpatch⟩ := h
  have hgetD (part : Option Int) (h : ∀ n ∈ part, 0 ≤ n) : 0 ≤ part.getD 0 := by
    cases part with
    | none => exact Int.le_refl 0
    | some n => exact h n rfl
  obtain ⟨major, hmajor⟩ := Int.eq_ofNat_of_zero_le hmajor
  obtain ⟨minor, hminor⟩ := Int.eq_ofNat_of_zero_le (hgetD c.minor hminor)
  obtain ⟨patch, hpatch⟩ := Int.eq_ofNat_of_zero_le (hgetD c.patch hpatch)
  exact ⟨major, minor, patch, by rw [release, hmajor, hminor, hpatch]⟩

theorem looseTail_nonneg {pieces : List (List Char)} {n : Int}
    (h : (looseTail pieces).1 = some n) : 0 ≤ n := by
  cases pieces with
  | nil => cases h
  | cons piece rest => exact Option.some.inj h ▸ Int.natCast_nonneg _

theorem isNatural_of_ofShape? (h : ofShape? text = some c) : c.IsNatural := by
  obtain ⟨s, -, rfl⟩ := exists_shape_of_ofShape? h
  refine ⟨Int.natCast_nonneg _, fun n hn => ?_, fun n hn => ?_⟩
  · obtain ⟨digits, -, rfl⟩ := Option.map_eq_some_iff.mp hn
    exact Int.natCast_nonneg _
  · obtain ⟨digits, -, rfl⟩ := Option.map_eq_some_iff.mp hn
    exact Int.natCast_nonneg _

theorem isNatural_of_ofPieces? (h : ofPieces? text = some c) : c.IsNatural := by
  unfold ofPieces? at h
  split at h
  next => contradiction
  next =>
    split at h
    next first second rest _ =>
      obtain rfl := Option.some.inj h
      refine ⟨Int.natCast_nonneg _, fun n hn => ?_, fun n hn => looseTail_nonneg hn⟩
      simp only [Option.mem_def] at hn
      split at hn
      · cases hn
      · exact Option.some.inj hn ▸ Int.natCast_nonneg _
    next =>
      split at h
      next =>
        obtain rfl := Option.some.inj h
        exact ⟨Int.natCast_nonneg _, fun _ hn => (by cases hn), fun _ hn => (by cases hn)⟩
      next => contradiction

theorem isNatural_of_ofText? (h : ofText? text = some c) : c.IsNatural := by
  rcases ofText?_cases h with h | h
  · exact isNatural_of_ofShape? h
  · exact isNatural_of_ofPieces? h

theorem ofText?_shape {s : Shape} (h : s.text.any Text.isBlank = false) :
    ofText? s.text = some s.components := by
  rw [ofText?, if_neg (by simp [h]), ofShape?_text, Option.some_or]

end Components

/-- Three numbers in ASCII digits. -/
def Shape.ofNumbers (major minor patch : Nat) : Shape where
  major := Nat.toDigits 10 major
  minor := some (Nat.toDigits 10 minor)
  patch := some (Nat.toDigits 10 patch)
  isNumber_major := Text.isNumber_toDigits major
  isNumber_minor := by
    rintro _ ⟨⟩
    exact Text.isNumber_toDigits minor
  isNumber_patch := by
    rintro _ ⟨⟩
    exact Text.isNumber_toDigits patch
  patch_eq_none := nofun
  isPrerelease := by rintro _ ⟨⟩
  isBuild := by rintro _ ⟨⟩

theorem Shape.not_isBlank_ofNumbers (major minor patch : Nat) :
    (ofNumbers major minor patch).numbers.any Text.isBlank = false := by
  have hdot : Text.isBlank '.' = false := by decide
  simp [numbers, ofNumbers, Text.marked, Text.not_isBlank_toDigits, hdot]

theorem Shape.text_ofNumbers (major minor patch : Nat) :
    (ofNumbers major minor patch).text = (ofNumbers major minor patch).numbers :=
  List.append_nil _

theorem Shape.components_ofNumbers (major minor patch : Nat) :
    (ofNumbers major minor patch).components =
      { major, minor := some minor, patch := some patch } := by
  simp [components, ofNumbers, Text.numeral_toDigits]

namespace Version

variable {text : String} {v : Version}

theorem parse_eq_ok_iff :
    parse text = .ok v ↔ Components.ofText? text.toList = some v.toComponents ∧ v.text = text := by
  unfold parse
  cases Components.ofText? text.toList with
  | none => simp
  | some c =>
    obtain ⟨c', text'⟩ := v
    simp [eq_comm]

theorem eq_of_parse_eq_error {e : FormatError} (h : parse text = .error e) : e = .version text := by
  unfold parse at h
  split at h
  · cases h
  · exact (Except.error.inj h).symm

/-- The version is what its own text shows. -/
def IsShown (v : Version) : Prop := parse v.text = .ok v

theorem isShown_of_parse (h : parse text = .ok v) : v.IsShown := by
  obtain ⟨_, rfl⟩ := parse_eq_ok_iff.mp h
  exact h

namespace IsShown

theorem not_isBlank (h : v.IsShown) : v.text.toList.any Text.isBlank = false :=
  Components.not_isBlank_of_ofText? (parse_eq_ok_iff.mp h).1

theorem exists_decimal (h : v.IsShown) :
    ∃ first rest, v.text.toList = first :: rest ∧ Text.isDecimal first = true :=
  Components.exists_decimal_of_ofText? (parse_eq_ok_iff.mp h).1

theorem isNatural (h : v.IsShown) : v.toComponents.IsNatural :=
  Components.isNatural_of_ofText? (parse_eq_ok_iff.mp h).1

end IsShown

theorem toList_repr_natCast (n : Nat) : (n : Int).repr.toList = Nat.toDigits 10 n := by
  change n.repr.toList = _
  rw [Nat.toList_repr]

theorem isShown_ofRelease (major minor patch : Nat) :
    (ofRelease ⟨major, minor, patch⟩).IsShown := by
  refine parse_eq_ok_iff.mpr ⟨?_, rfl⟩
  have htext : (ofRelease ⟨major, minor, patch⟩).text.toList =
      (Shape.ofNumbers major minor patch).numbers := by
    simp [ofRelease, ofComponents, Components.render, Components.renderPart, toList_repr_natCast,
      Shape.numbers, Shape.ofNumbers, Text.marked]
  have hblank := Shape.not_isBlank_ofNumbers major minor patch
  rw [← Shape.text_ofNumbers] at htext hblank
  rw [htext, Components.ofText?_shape hblank, Shape.components_ofNumbers]
  rfl

theorem IsShown.increment (h : v.IsShown) (component : Component) :
    (v.increment component).IsShown := by
  obtain ⟨major, minor, patch, hrelease⟩ := h.isNatural.exists_release
  rw [Version.increment, hrelease]
  cases component with
  | major => exact isShown_ofRelease (major + 1) 0 0
  | minor => exact isShown_ofRelease major (minor + 1) 0
  | patch => exact isShown_ofRelease major minor (patch + 1)

theorem IsShown.base (h : v.IsShown) : v.base.IsShown := by
  obtain ⟨major, minor, patch, hrelease⟩ := h.isNatural.exists_release
  rw [Version.base, hrelease]
  exact isShown_ofRelease major minor 0

end Version

end Versioning
