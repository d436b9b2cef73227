import Mathlib.Data.List.TakeWhile
import Versioning.Version.Reader

/-! Texts of the shape `N[.N][.N][-prerelease][+build]`, with digits of any script, given by their
parts.  A text has the shape in one way only, and what is read from it is what its parts say. -/

namespace Versioning

namespace Text

/-- One decimal digit or more, of any scripts. -/
def IsNumber (digits : List Char) : Prop := digits ≠ [] ∧ ∀ c ∈ digits, isDecimal c = true

/-- A part of a text that may be missing, after its mark. -/
def marked (mark : Char) : Option (List Char) → List Char
  | none => []
  | some part => mark :: part

variable {digits rest : List Char}

theorem takeWhile_number (h : IsNumber digits) (hrest : rest.head?.all (!isDecimal ·) = true) :
    (digits ++ rest).takeWhile isDecimal = digits ∧
      (digits ++ rest).dropWhile isDecimal = rest := by
  rw [List.takeWhile_append_of_pos h.2, List.dropWhile_append_of_pos h.2]
  cases rest with
  | nil => simp
  | cons c rest =>
    have hc : ¬isDecimal c = true := by simpa using hrest
    rw [List.takeWhile_cons_of_neg hc, List.dropWhile_cons_of_neg hc, List.append_nil]
    exact ⟨rfl, rfl⟩

theorem head?_marked_append {number : Option (List Char)}
    (hrest : rest.head?.all (!isDecimal ·) = true) :
    (marked '.' number ++ rest).head?.all (!isDecimal ·) = true := by
  cases number with
  | none => exact hrest
  | some digits =>
    simp only [marked, List.cons_append, List.head?_cons, Option.all_some]
    decide

end Text

/-- The parts of a text `N[.N][.N][-prerelease][+build]`.  A single number behind the first one is
the minor number. -/
structure Shape where
  major : List Char
  minor : Option (List Char) := none
  patch : Option (List Char) := none
  prerelease : Option (List Char) := none
  build : Option (List Char) := none
  isNumber_major : Text.IsNumber major
  isNumber_minor : ∀ digits ∈ minor, Text.IsNumber digits
  isNumber_patch : ∀ digits ∈ patch, Text.IsNumber digits
  patch_eq_none : minor = none → patch = none
  isPrerelease : ∀ part ∈ prerelease, part ≠ [] ∧ '+' ∉ part
  isBuild : ∀ part ∈ build, part ≠ []

namespace Shape

def numbers (s : Shape) : List Char :=
  s.major ++ (Text.marked '.' s.minor ++ Text.marked '.' s.patch)

/-- What follows the numbers. -/
def tail (s : Shape) : List Char := Text.marked '-' s.prerelease ++ Text.marked '+' s.build

def text (s : Shape) : List Char := s.numbers ++ s.tail

theorem head?_tail (s : Shape) :
    s.tail.head?.all (!Text.isDecimal ·) = true ∧ s.tail.head? ≠ some '.' := by
  unfold tail
  cases s.prerelease <;> cases s.build <;> simp [Text.marked] <;> decide

/-- What the parts say, the numbers by their values. -/
def components (s : Shape) : Components where
  major := Text.numeral s.major
  minor := s.minor.map fun digits => Text.numeral digits
  patch := s.patch.map fun digits => Text.numeral digits
  prerelease := s.prerelease.map String.ofList
  build := s.build.map String.ofList

/-- The same numbers with other parts behind them. -/
def withTail (s : Shape) (prerelease build : Option (List Char))
    (isPrerelease : ∀ part ∈ prerelease, part ≠ [] ∧ '+' ∉ part)
    (isBuild : ∀ part ∈ build, part ≠ []) : Shape :=
  { s with prerelease, build, isPrerelease, isBuild }

theorem not_mem_numbers (s : Shape) {x : Char} (hdecimal : Text.isDecimal x = false)
    (hdot : x ≠ '.') : x ∉ s.numbers := by
  have hnumber {digits : List Char} (h : Text.IsNumber digits) : x ∉ digits := fun hx => by
    rw [h.2 x hx] at hdecimal
    contradiction
  have hmarked {part : Option (List Char)} (h : ∀ digits ∈ part, Text.IsNumber digits) :
      x ∉ Text.marked '.' part := by
    cases part with
    | none => exact List.not_mem_nil
    | some digits => simpa [Text.marked, hdot] using hnumber (h digits rfl)
  simp [numbers, hnumber s.isNumber_major, hmarked s.isNumber_minor, hmarked s.isNumber_patch]

/-- What stands before the mark of the build. -/
def unbuilt (s : Shape) : Shape := s.withTail s.prerelease none s.isPrerelease (by simp)

theorem text_unbuilt (s : Shape) : s.unbuilt.text = s.numbers ++ Text.marked '-' s.prerelease :=
  congrArg (s.numbers ++ ·) (List.append_nil _)

theorem text_eq_unbuilt (s : Shape) : s.text = s.unbuilt.text ++ Text.marked '+' s.build := by
  rw [text_unbuilt, text, tail, List.append_assoc]

theorem plus_not_mem_unbuilt (s : Shape) : '+' ∉ s.unbuilt.text := by
  have hnumbers : '+' ∉ s.numbers := s.not_mem_numbers (by decide) (by decide)
  have hprerelease : '+' ∉ Text.marked '-' s.prerelease := by
    cases hp : s.prerelease with
    | none => exact List.not_mem_nil
    | some part => simpa [Text.marked] using (s.isPrerelease part hp).2
  rw [text_unbuilt, List.mem_append]
  exact not_or.mpr ⟨hnumbers, hprerelease⟩

end Shape

namespace Components

variable {text rest : List Char} {c : Components}

/-! ### Each part by itself -/

theorem dottedNumber_marked {digits : Option (List Char)} (h : ∀ d ∈ digits, Text.IsNumber d)
    (hrest : rest.head?.all (!Text.isDecimal ·) = true)
    (hdot : digits = none → rest.head? ≠ some '.') :
    dottedNumber (Text.marked '.' digits ++ rest) =
      (digits.map fun d => (Text.numeral d : Int), rest) := by
  cases digits with
  | none =>
    cases rest with
    | nil => rfl
    | cons first rest =>
      have hne : first ≠ '.' := by simpa using hdot rfl
      simp [Text.marked, dottedNumber, hne]
  | some digits =>
    obtain ⟨htake, hdrop⟩ := Text.takeWhile_number (h digits rfl) hrest
    simp only [Text.marked, List.cons_append, dottedNumber, htake, hdrop]
    rw [if_neg (by simpa using (h digits rfl).1)]
    rfl

theorem exists_of_dottedNumber (text : List Char) :
    ∃ digits : Option (List Char), text = Text.marked '.' digits ++ (dottedNumber text).2 ∧
      (∀ d ∈ digits, Text.IsNumber d) ∧
      (dottedNumber text).1 = digits.map fun d => (Text.numeral d : Int) := by
  fun_cases dottedNumber text with
  | case1 rest digits he => exact ⟨none, rfl, by simp, rfl⟩
  | case2 rest digits he =>
    refine ⟨some digits, ?_, ?_, rfl⟩
    · simp [Text.marked, digits, List.takeWhile_append_dropWhile]
    · rintro _ ⟨⟩
      exact ⟨by simpa using he, fun c hc => List.mem_takeWhile_imp hc⟩
  | case3 => exact ⟨none, rfl, by simp, rfl⟩

theorem dashedPart_marked {prerelease build : Option (List Char)}
    (h : ∀ part ∈ prerelease, part ≠ [] ∧ '+' ∉ part) :
    dashedPart (Text.marked '-' prerelease ++ Text.marked '+' build) =
      (prerelease.map String.ofList, Text.marked '+' build) := by
  cases prerelease with
  | none => cases build <;> rfl
  | some part =>
    obtain ⟨hne, hplus⟩ := h part rfl
    have hpart := Text.bne_of_not_mem hplus
    simp only [Text.marked, List.cons_append, dashedPart, List.takeWhile_append_of_pos hpart,
      List.dropWhile_append_of_pos hpart]
    cases build <;> simp [hne]

theorem exists_of_dashedPart (text : List Char) :
    ∃ prerelease : Option (List Char),
      text = Text.marked '-' prerelease ++ (dashedPart text).2 ∧
      (∀ part ∈ prerelease, part ≠ [] ∧ '+' ∉ part) ∧
      (dashedPart text).1 = prerelease.map String.ofList := by
  fun_cases dashedPart text with
  | case1 rest part he => exact ⟨none, rfl, by simp, rfl⟩
  | case2 rest part he =>
    refine ⟨some part, ?_, ?_, rfl⟩
    · simp [Text.marked, part, List.takeWhile_append_dropWhile]
    · rintro _ ⟨⟩
      refine ⟨by simpa using he, fun hplus => ?_⟩
      simpa using List.mem_takeWhile_imp hplus
  | case3 => exact ⟨none, rfl, by simp, rfl⟩

theorem buildPart?_marked {build : Option (List Char)} (h : ∀ part ∈ build, part ≠ []) :
    buildPart? (Text.marked '+' build) = some (build.map String.ofList) := by
  cases build with
  | none => rfl
  | some part => simp [Text.marked, buildPart?, nonempty?, h part rfl]

theorem exists_of_buildPart? {build : Option String} (h : buildPart? text = some build) :
    ∃ part : Option (List Char), text = Text.marked '+' part ∧ (∀ b ∈ part, b ≠ []) ∧
      build = part.map String.ofList := by
  unfold buildPart? at h
  split at h
  next => exact ⟨none, rfl, by simp, (Option.some.inj h).symm⟩
  next rest =>
    unfold nonempty? at h
    split at h
    next => contradiction
    next hne =>
      refine ⟨some rest, rfl, ?_, (Option.some.inj h).symm⟩
      rintro _ ⟨⟩
      simpa using hne
  next => contradiction

/-! ### The shape as a whole -/

/-- Whatever follows the numbers, they are read first. -/
theorem ofShape?_numbers_append (s : Shape) (hdecimal : rest.head?.all (!Text.isDecimal ·) = true)
    (hdot : rest.head? ≠ some '.') :
    ofShape? (s.numbers ++ rest) = (buildPart? (dashedPart rest).2).map fun build =>
      { s.components with prerelease := (dashedPart rest).1, build } := by
  have hpatch : dottedNumber (Text.marked '.' s.patch ++ rest) =
      (s.patch.map fun d => (Text.numeral d : Int), rest) :=
    dottedNumber_marked s.isNumber_patch hdecimal fun _ => hdot
  have hminor : dottedNumber (Text.marked '.' s.minor ++ (Text.marked '.' s.patch ++ rest)) =
      (s.minor.map fun d => (Text.numeral d : Int), Text.marked '.' s.patch ++ rest) := by
    refine dottedNumber_marked s.isNumber_minor (Text.head?_marked_append hdecimal) fun hnone => ?_
    rw [s.patch_eq_none hnone]
    exact hdot
  have hmajor : (Text.marked '.' s.minor ++ (Text.marked '.' s.patch ++ rest)).head?.all
      (!Text.isDecimal ·) = true := Text.head?_marked_append (Text.head?_marked_append hdecimal)
  obtain ⟨htake, hdrop⟩ := Text.takeWhile_number s.isNumber_major hmajor
  rw [ofShape?, Shape.numbers, List.append_assoc, List.append_assoc]
  simp only [htake, hdrop, hminor, hpatch]
  rw [if_neg (by simpa using s.isNumber_major.1)]
  rfl

theorem ofShape?_text (s : Shape) : ofShape? s.text = some s.components := by
  obtain ⟨hdecimal, hdot⟩ := s.head?_tail
  have htail : dashedPart s.tail = (s.prerelease.map String.ofList, Text.marked '+' s.build) :=
    dashedPart_marked s.isPrerelease
  rw [Shape.text, ofShape?_numbers_append s hdecimal hdot, htail, buildPart?_marked s.isBuild]
  rfl

/-- What is read by its shape has the shape. -/
theorem exists_shape_of_ofShape? (h : ofShape? text = some c) :
    ∃ s : Shape, s.text = text ∧ s.components = c := by
  simp only [ofShape?] at h
  split at h
  next => contradiction
  next hdigits =>
    obtain ⟨build, hbuild, rfl⟩ := Option.map_eq_some_iff.mp h
    obtain ⟨minor, htext, hminor, hm⟩ := exists_of_dottedNumber (text.dropWhile Text.isDecimal)
    obtain ⟨patch, htext', hpatch, hp⟩ :=
      exists_of_dottedNumber (dottedNumber (text.dropWhile Text.isDecimal)).2
    obtain ⟨prerelease, htext'', hprerelease, hr⟩ := exists_of_dashedPart
      (dottedNumber (dottedNumber (text.dropWhile Text.isDecimal)).2).2
    obtain ⟨part, htail, hpart, hb⟩ := exists_of_buildPart? hbuild
    -- Where the first attempt finds no number, the second is made at the same place.
    have hpatch_eq : minor = none → patch = none := by
      rintro rfl
      have hrest : text.dropWhile Text.isDecimal =
        (dottedNumber (text.dropWhile Text.isDecimal)).2 := htext
      rw [← hrest, hm] at hp
      exact Option.map_eq_none_iff.mp hp.symm
    refine ⟨{
      major := text.takeWhile Text.isDecimal
      minor, patch, prerelease, build := part
      isNumber_major := ⟨by simpa using hdigits, fun c hc => List.mem_takeWhile_imp hc⟩
      isNumber_minor := hminor
      isNumber_patch := hpatch
      patch_eq_none := hpatch_eq
      isPrerelease := hprerelease
      isBuild := hpart }, ?_, ?_⟩
    · simp only [Shape.text, Shape.numbers, Shape.tail, List.append_assoc]
      rw [← htail, ← htext'', ← htext', ← htext, List.takeWhile_append_dropWhile]
    · simp only [Shape.components, ← hm, ← hp, ← hr, ← hb]

end Components

end Versioning
