import Versioning.Proofs.Version.Reader

/-! Texts that are made of components, and components that are read from texts.  What can be written
down is read back as it was; and a text of the usual shape is written again from what was read, if
none of its numbers has a zero in front that could be left out. -/

namespace Versioning

/-! ### Numbers -/

namespace Text

variable {digits : List Char}

/-- A number in ASCII digits, without a zero in front that could be left out. -/
def IsCanonical (digits : List Char) : Prop :=
  isNumeric digits = true ∧ (digits.head? = some '0' → digits = ['0'])

instance (digits : List Char) : Decidable (IsCanonical digits) :=
  inferInstanceAs (Decidable (_ ∧ _))

theorem digitValue_lt {c : Char} (h : c.isDigit = true) : c.toNat - '0'.toNat < 10 := by
  have hcode := Char.isDigit_iff_toNat.mp h
  have hnine : '9'.toNat < '0'.toNat + 10 := by decide
  omega

theorem toDigits_digitValue {c : Char} (h : c.isDigit = true) :
    Nat.toDigits 10 (c.toNat - '0'.toNat) = [c] := by
  have hcode := Char.isDigit_iff_toNat.mp h
  have hzero : '0'.toNat = 48 := rfl
  rw [Nat.toDigits_of_lt_base (digitValue_lt h), List.singleton_inj]
  apply Char.toNat_inj.mp
  rw [Nat.toNat_digitChar_of_lt_ten (digitValue_lt h)]
  omega

/-- Digits behind a number that is not zero are written as they are. -/
theorem toDigits_foldl (h : ∀ c ∈ digits, c.isDigit = true) {n : Nat} (hn : 0 < n) :
    Nat.toDigits 10 (digits.foldl (fun value c => 10 * value + (digitValue? c).getD 0) n) =
      Nat.toDigits 10 n ++ digits := by
  induction digits generalizing n with
  | nil => simp
  | cons c digits ih =>
    obtain ⟨hc, hdigits⟩ := List.forall_mem_cons.mp h
    rw [List.foldl_cons, digitValue?_of_isDigit hc, Option.getD_some, ih hdigits (by omega),
      ← Nat.toDigits_append_toDigits (by decide) hn (digitValue_lt hc), toDigits_digitValue hc,
      List.append_assoc]
    rfl

theorem toDigits_numeral (h : IsCanonical digits) : Nat.toDigits 10 (numeral digits) = digits := by
  obtain ⟨hnumeric, hzero⟩ := h
  cases digits with
  | nil => cases hnumeric
  | cons c digits =>
    obtain ⟨hc, hdigits⟩ := List.forall_mem_cons.mp (isDigit_of_isNumeric hnumeric)
    by_cases hhead : c = '0'
    · rw [hzero (by simp [hhead])]
      rfl
    · have hone := toDigits_digitValue hc
      have hpos : 0 < c.toNat - '0'.toNat := by
        have hne : c.toNat ≠ '0'.toNat := fun h => hhead (Char.toNat_inj.mp h)
        have hcode := Char.isDigit_iff_toNat.mp hc
        omega
      rw [numeral, List.foldl_cons, digitValue?_of_isDigit hc, Option.getD_some, Nat.mul_zero,
        Nat.zero_add, toDigits_foldl hdigits hpos, hone]
      rfl

theorem head?_toDigits_ne {n : Nat} (hn : 0 < n) : (Nat.toDigits 10 n).head? ≠ some '0' := by
  induction n using Nat.strongRecOn with
  | ind n ih =>
    by_cases hlt : n < 10
    · have hcode := Nat.toNat_digitChar_of_lt_ten hlt
      rw [Nat.toDigits_of_lt_base hlt, List.head?_cons, Ne, Option.some.injEq]
      rintro h
      rw [h] at hcode
      have hzero : '0'.toNat = 48 := rfl
      omega
    · rw [Nat.toDigits_of_base_le (by decide) (by omega),
        List.head?_append_of_ne_nil _ Nat.toDigits_ne_nil]
      exact ih (n / 10) (by omega) (by omega)

theorem isCanonical_toDigits (n : Nat) : IsCanonical (Nat.toDigits 10 n) := by
  refine ⟨?_, fun h => ?_⟩
  · rw [isNumeric, Bool.and_eq_true_iff]
    exact ⟨by simp [Nat.toDigits_ne_nil],
      List.all_eq_true.mpr fun c hc => isDigit_of_mem_toDigits hc⟩
  · rcases Nat.eq_zero_or_pos n with rfl | hn
    · exact Nat.toDigits_zero 10
    · exact absurd h (head?_toDigits_ne hn)

theorem toDigits_numeral_eq_iff : Nat.toDigits 10 (numeral digits) = digits ↔ IsCanonical digits :=
  ⟨fun h => h ▸ isCanonical_toDigits _, toDigits_numeral⟩

end Text

namespace Shape

variable {s : Shape}

/-- None of the numbers has a zero in front that could be left out. -/
structure IsCanonical (s : Shape) : Prop where
  major : Text.IsCanonical s.major
  minor : ∀ digits ∈ s.minor, Text.IsCanonical digits
  patch : ∀ digits ∈ s.patch, Text.IsCanonical digits

/-! ### A text tells its parts -/

theorem eq_of_marked_append {number number' : Option (List Char)} {rest rest' : List Char}
    (h : ∀ d ∈ number, Text.IsNumber d) (h' : ∀ d ∈ number', Text.IsNumber d)
    (hrest : rest.head?.all (!Text.isDecimal ·) = true)
    (hrest' : rest'.head?.all (!Text.isDecimal ·) = true)
    (hdot : number = none → rest.head? ≠ some '.') (hdot' : number' = none → rest'.head? ≠ some '.')
    (heq : Text.marked '.' number ++ rest = Text.marked '.' number' ++ rest') :
    number = number' ∧ rest = rest' := by
  cases number with
  | none =>
    cases number' with
    | none => exact ⟨rfl, heq⟩
    | some d' => exact absurd (congrArg List.head? heq) (hdot rfl)
  | some d =>
    cases number' with
    | none => exact absurd (congrArg List.head? heq).symm (hdot' rfl)
    | some d' =>
      have htail : d ++ rest = d' ++ rest' := (List.cons.inj heq).2
      obtain ⟨htake, hdrop⟩ := Text.takeWhile_number (h d rfl) hrest
      obtain ⟨htake', hdrop'⟩ := Text.takeWhile_number (h' d' rfl) hrest'
      rw [htail] at htake hdrop
      exact ⟨congrArg some (htake.symm.trans htake'), hdrop.symm.trans hdrop'⟩

/-- The text tells its numbers. -/
theorem numbers_eq_of_text_eq {s' : Shape} (h : s.text = s'.text) :
    s.major = s'.major ∧ s.minor = s'.minor ∧ s.patch = s'.patch := by
  have hpatch (s : Shape) : (Text.marked '.' s.patch ++ s.tail).head?.all
      (!Text.isDecimal ·) = true := Text.head?_marked_append s.head?_tail.1
  have hminor (s : Shape) :
      (Text.marked '.' s.minor ++ (Text.marked '.' s.patch ++ s.tail)).head?.all
        (!Text.isDecimal ·) = true := Text.head?_marked_append (hpatch s)
  have hdot (s : Shape) (hnone : s.minor = none) :
      (Text.marked '.' s.patch ++ s.tail).head? ≠ some '.' := by
    rw [s.patch_eq_none hnone]
    exact s.head?_tail.2
  simp only [text, numbers, List.append_assoc] at h
  obtain ⟨htake, hdrop⟩ := Text.takeWhile_number s.isNumber_major (hminor s)
  obtain ⟨htake', hdrop'⟩ := Text.takeWhile_number s'.isNumber_major (hminor s')
  rw [h] at htake hdrop
  obtain ⟨hm, hrest⟩ := eq_of_marked_append s.isNumber_minor s'.isNumber_minor (hpatch s)
    (hpatch s') (hdot s) (hdot s') (hdrop.symm.trans hdrop')
  obtain ⟨hp, -⟩ := eq_of_marked_append s.isNumber_patch s'.isNumber_patch s.head?_tail.1
    s'.head?_tail.1 (fun _ => s.head?_tail.2) (fun _ => s'.head?_tail.2) hrest
  exact ⟨htake.symm.trans htake', hm, hp⟩

/-! ### What is written from the parts -/

/-- The same numbers in ASCII digits, without superfluous zeros, and the same parts behind them. -/
def rewritten (s : Shape) : Shape :=
  let rewrite := fun digits => Nat.toDigits 10 (Text.numeral digits)
  { s with
    major := rewrite s.major
    minor := s.minor.map rewrite
    patch := s.patch.map rewrite
    isNumber_major := Text.isNumber_toDigits _
    isNumber_minor := by
      rintro _ h
      obtain ⟨digits, -, rfl⟩ := Option.map_eq_some_iff.mp h
      exact Text.isNumber_toDigits _
    isNumber_patch := by
      rintro _ h
      obtain ⟨digits, -, rfl⟩ := Option.map_eq_some_iff.mp h
      exact Text.isNumber_toDigits _
    patch_eq_none := fun h => by
      rw [s.patch_eq_none (Option.map_eq_none_iff.mp h), Option.map_none] }

theorem components_rewritten (s : Shape) : s.rewritten.components = s.components := by
  simp [components, rewritten, Function.comp_def, Text.numeral_toDigits]

theorem isCanonical_rewritten (s : Shape) : s.rewritten.IsCanonical := by
  refine ⟨Text.isCanonical_toDigits _, fun digits h => ?_, fun digits h => ?_⟩
  · obtain ⟨digits, -, rfl⟩ := Option.map_eq_some_iff.mp h
    exact Text.isCanonical_toDigits _
  · obtain ⟨digits, -, rfl⟩ := Option.map_eq_some_iff.mp h
    exact Text.isCanonical_toDigits _

theorem map_rewrite_eq_iff {number : Option (List Char)} :
    number.map (fun digits => Nat.toDigits 10 (Text.numeral digits)) = number ↔
      ∀ digits ∈ number, Text.IsCanonical digits := by
  cases number <;> simp [Text.toDigits_numeral_eq_iff]

theorem text_rewritten_eq_iff : s.rewritten.text = s.text ↔ s.IsCanonical := by
  constructor
  · intro h
    obtain ⟨hmajor, hminor, hpatch⟩ := numbers_eq_of_text_eq h
    exact ⟨Text.toDigits_numeral_eq_iff.mp hmajor, map_rewrite_eq_iff.mp hminor,
      map_rewrite_eq_iff.mp hpatch⟩
  · rintro ⟨hmajor, hminor, hpatch⟩
    simp only [text, numbers, tail, rewritten, Text.toDigits_numeral hmajor,
      map_rewrite_eq_iff.mpr hminor, map_rewrite_eq_iff.mpr hpatch]

theorem toList_renderPart {mark : String} {c : Char} (hmark : mark.toList = [c])
    (part : Option String) :
    (Components.renderPart mark part).toList = Text.marked c (part.map String.toList) := by
  cases part <;> simp [Components.renderPart, Text.marked, hmark]

theorem toList_render (s : Shape) : s.components.render.toList = s.rewritten.text := by
  have hdot := @toList_renderPart "." '.' rfl
  have hdash := @toList_renderPart "-" '-' rfl
  have hplus := @toList_renderPart "+" '+' rfl
  simp [Components.render, components, hdot, hdash, hplus, Version.toList_repr_natCast,
    Function.comp_def, text, numbers, tail, rewritten]

theorem not_isBlank_marked {mark : Char} {part : Option (List Char)}
    (hmark : Text.isBlank mark = false)
    (h : ∀ chars ∈ part, chars.any Text.isBlank = false) :
    (Text.marked mark part).any Text.isBlank = false := by
  cases part with
  | none => rfl
  | some chars => simpa [Text.marked, hmark] using h chars rfl

theorem not_isBlank_text (h : s.IsCanonical)
    (hprerelease : ∀ part ∈ s.prerelease, part.any Text.isBlank = false)
    (hbuild : ∀ part ∈ s.build, part.any Text.isBlank = false) :
    s.text.any Text.isBlank = false := by
  have hdigits {digits : List Char} (h : Text.IsCanonical digits) :
      digits.any Text.isBlank = false := List.any_eq_false.mpr fun c hc => by
    simp [Text.isBlank_eq_false_of_isDigit (Text.isDigit_of_isNumeric h.1 c hc)]
  have hminor := not_isBlank_marked (by decide : Text.isBlank '.' = false)
    fun digits hd => hdigits (h.minor digits hd)
  have hpatch := not_isBlank_marked (by decide : Text.isBlank '.' = false)
    fun digits hd => hdigits (h.patch digits hd)
  have hrest := not_isBlank_marked (by decide : Text.isBlank '-' = false) hprerelease
  have hlast := not_isBlank_marked (by decide : Text.isBlank '+' = false) hbuild
  simp only [text, numbers, tail, List.any_append, hdigits h.major, hminor, hpatch, hrest, hlast,
    Bool.or_self]

end Shape

/-- What a text of the usual shape can say: numbers that are not negative, a patch number only
behind a minor one, and parts behind the marks with something in them. -/
structure Components.IsWritable (c : Components) : Prop where
  natural : c.IsNatural
  patch : c.minor = none → c.patch = none
  prerelease : ∀ p ∈ c.prerelease, p ≠ "" ∧ '+' ∉ p.toList ∧ p.toList.any Text.isBlank = false
  build : ∀ b ∈ c.build, b ≠ "" ∧ b.toList.any Text.isBlank = false

namespace Components

variable {c : Components}

theorem exists_digits {number : Option Int} (h : ∀ n ∈ number, 0 ≤ n) :
    ∃ digits : Option (List Char), (∀ d ∈ digits, Text.IsNumber d) ∧
      digits.map (fun d => (Text.numeral d : Int)) = number := by
  cases number with
  | none => exact ⟨none, by simp, rfl⟩
  | some n =>
    obtain ⟨n, rfl⟩ := Int.eq_ofNat_of_zero_le (h n rfl)
    refine ⟨some (Nat.toDigits 10 n), ?_, ?_⟩
    · simpa using Text.isNumber_toDigits n
    · simp [Text.numeral_toDigits]

/-- What can be written is what the parts of some text say. -/
theorem IsWritable.exists_shape (h : c.IsWritable) : ∃ s : Shape, s.components = c := by
  obtain ⟨hmajor, hminor, hpatch⟩ := h.natural
  obtain ⟨major, hmajor⟩ := Int.eq_ofNat_of_zero_le hmajor
  obtain ⟨minor, hminor, hm⟩ := exists_digits hminor
  obtain ⟨patch, hpatch, hp⟩ := exists_digits hpatch
  refine ⟨{
    major := Nat.toDigits 10 major
    minor, patch
    prerelease := c.prerelease.map String.toList
    build := c.build.map String.toList
    isNumber_major := Text.isNumber_toDigits major
    isNumber_minor := hminor
    isNumber_patch := hpatch
    patch_eq_none := fun hnone => ?_
    isPrerelease := fun part hpart => ?_
    isBuild := fun part hpart => ?_ }, ?_⟩
  · have hnone' : c.patch = none := h.patch (by rw [← hm, hnone, Option.map_none])
    rw [← hp] at hnone'
    exact Option.map_eq_none_iff.mp hnone'
  · obtain ⟨p, hp, rfl⟩ := Option.map_eq_some_iff.mp hpart
    obtain ⟨hne, hplus, -⟩ := h.prerelease p hp
    exact ⟨by simpa using hne, hplus⟩
  · obtain ⟨b, hb, rfl⟩ := Option.map_eq_some_iff.mp hpart
    simpa using (h.build b hb).1
  · simp [Shape.components, hm, hp, ← hmajor, Text.numeral_toDigits]

end Components

namespace Version

theorem parse_rewritten {s : Shape} (hprerelease : ∀ p ∈ s.prerelease, p.any Text.isBlank = false)
    (hbuild : ∀ b ∈ s.build, b.any Text.isBlank = false) :
    parse (ofComponents s.components).text = .ok (ofComponents s.components) := by
  have hblank := Shape.not_isBlank_text s.isCanonical_rewritten hprerelease hbuild
  refine parse_eq_ok_iff.mpr ⟨?_, rfl⟩
  change Components.ofText? s.components.render.toList = some s.components
  rw [Shape.toList_render, Components.ofText?_shape hblank, Shape.components_rewritten]

/-- What is written is read back, with the same components.  A text of the usual shape is written
again from the components that are read from it just if its numbers have no superfluous zeros.
The base of a version and the first version of any of its series are read back, too. -/
theorem parse_render_inverse :
    (∀ c : Components, c.IsWritable → parse (ofComponents c).text = .ok (ofComponents c)) ∧
    (∀ s : Shape, s.text.any Text.isBlank = false → ∃ v, parse (String.ofList s.text) = .ok v ∧
      ((ofComponents v.toComponents).text = String.ofList s.text ↔ s.IsCanonical)) ∧
    ∀ (text : String) (v : Version), parse text = .ok v → parse v.base.text = .ok v.base ∧
      ∀ component, parse (v.increment component).text = .ok (v.increment component) := by
  refine ⟨fun c hc => ?components, fun s hblank => ?text, fun text v hv => ?computed⟩
  case components =>
    obtain ⟨s, rfl⟩ := hc.exists_shape
    refine parse_rewritten (fun part hpart => ?_) fun part hpart => ?_
    · simpa using (hc.prerelease _ (Option.mem_map_of_mem _ hpart)).2.2
    · simpa using (hc.build _ (Option.mem_map_of_mem _ hpart)).2
  case text =>
    refine ⟨{ s.components with text := String.ofList s.text }, ?_, ?_⟩
    · refine parse_eq_ok_iff.mpr ⟨?_, rfl⟩
      rw [String.toList_ofList, Components.ofText?_shape hblank]
    · change s.components.render = String.ofList s.text ↔ _
      rw [← String.toList_inj, String.toList_ofList, Shape.toList_render,
        Shape.text_rewritten_eq_iff]
  case computed =>
    have hshown := isShown_of_parse hv
    exact ⟨hshown.base, hshown.increment⟩

/-- Dashes, dots and plus signs in the parts behind the marks, a zero that cannot be left out and
one that can, and a text that is read by its pieces. -/
theorem parse_render_inverse_marks :
    let c : Components :=
      { major := 10, minor := some 0, prerelease := some "0-rc.01", build := some "-a+b.1" }
    let s : Shape := {
      major := ['0', '1']
      isNumber_major := Text.isNumber_of_isNumeric (by decide)
      isNumber_minor := by rintro _ ⟨⟩
      isNumber_patch := by rintro _ ⟨⟩
      patch_eq_none := fun _ => rfl
      isPrerelease := by rintro _ ⟨⟩
      isBuild := by rintro _ ⟨⟩ }
    parse "10.0-0-rc.01+-a+b.1" = .ok (ofComponents c) ∧
      (∃ v, parse (String.ofList s.text) = .ok v ∧ (ofComponents v.toComponents).text ≠ "01") ∧
      ∃ v, parse "1.x-a.5" = .ok v ∧ parse v.base.text = .ok v.base := by
  intro c s
  have hc : c.IsWritable :=
    ⟨⟨by decide, by simp [c], by simp [c]⟩, by simp [c], by simp [c]; decide, by simp [c]; decide⟩
  refine ⟨parse_render_inverse.1 c hc, ?_, ?_⟩
  · obtain ⟨v, hv, hwritten⟩ := parse_render_inverse.2.1 s (by decide)
    have hzero : ¬s.IsCanonical := fun h => absurd h.major (by decide)
    exact ⟨v, hv, fun h => hzero (hwritten.mp h)⟩
  · exact ⟨_, rfl, (parse_render_inverse.2.2 "1.x-a.5" _ rfl).1⟩

end Version

end Versioning
