import Versioning.Proofs.Version.Build

/-! The language of version texts.  A text shows a version if it has no blank and either the shape
`N[.N][.N][-prerelease][+build]`, with digits of any script, or an ASCII digit in front and a dot or
a dash somewhere; every other text is refused.  The major number is the one that the text starts
with, in digits of any script if the text has the shape and in ASCII digits if it has not. -/

namespace Versioning

namespace Components

variable {text : List Char} {c : Components}

theorem isSome_ofShape?_iff : (ofShape? text).isSome = true ↔ ∃ s : Shape, s.text = text := by
  rw [Option.isSome_iff_exists]
  constructor
  · rintro ⟨c, hc⟩
    obtain ⟨s, hs, -⟩ := exists_shape_of_ofShape? hc
    exact ⟨s, hs⟩
  · rintro ⟨s, rfl⟩
    exact ⟨_, ofShape?_text s⟩

instance (text : List Char) : Decidable (∃ s : Shape, s.text = text) :=
  decidable_of_iff _ isSome_ofShape?_iff

theorem major_of_ofShape? (h : ofShape? text = some c) :
    c.major = Text.numeral (text.takeWhile Text.isDecimal) := by
  simp only [ofShape?] at h
  split at h
  next => contradiction
  next =>
    obtain ⟨build, -, rfl⟩ := Option.map_eq_some_iff.mp h
    rfl

/-- What is read where there is no shape: a digit in front, and something to cut the text at. -/
def HasPieces (text : List Char) : Prop :=
  text.head?.any Char.isDigit = true ∧ ('.' ∈ text ∨ '-' ∈ text)

instance (text : List Char) : Decidable (HasPieces text) := inferInstanceAs (Decidable (_ ∧ _))

theorem exists_ofPieces?_iff : (∃ c, ofPieces? text = some c) ↔ HasPieces text := by
  constructor
  · rintro ⟨c, hc⟩
    obtain ⟨hhead, hcut⟩ := ofPieces?_cases hc
    exact ⟨hhead, hcut.imp_right And.right⟩
  · rintro ⟨hhead, hcut⟩
    exact exists_ofPieces? hhead hcut

theorem exists_ofText?_iff : (∃ c, ofText? text = some c) ↔
    (∀ c ∈ text, Text.isBlank c = false) ∧ ((∃ s : Shape, s.text = text) ∨ HasPieces text) := by
  rw [← exists_ofPieces?_iff, ← isSome_ofShape?_iff]
  cases hblank : text.any Text.isBlank with
  | true =>
    have hnot : ¬∀ c ∈ text, Text.isBlank c = false := by simpa using hblank
    simp [ofText?, hblank, hnot]
  | false =>
    have hall : ∀ c ∈ text, Text.isBlank c = false := by simpa using hblank
    rw [and_iff_right hall]
    cases hshape : ofShape? text <;> simp [ofText?, hblank, hshape]

end Components

namespace Version

variable {text : String} {v : Version}

/-- The texts that show a version. -/
def IsVersionText (text : String) : Prop :=
  (∀ c ∈ text.toList, Text.isBlank c = false) ∧
    ((∃ s : Shape, s.text = text.toList) ∨ Components.HasPieces text.toList)

-- The characters of the text are tried, not all that there are.
instance (text : String) : Decidable (IsVersionText text) :=
  @instDecidableAnd _ _ (List.decidableBAll _ _) inferInstance

theorem exists_parse_iff : (∃ v, parse text = .ok v) ↔ IsVersionText text := by
  rw [IsVersionText, ← Components.exists_ofText?_iff]
  unfold parse
  cases Components.ofText? text.toList <;> simp

theorem parse_of_not_isVersionText (h : ¬IsVersionText text) :
    parse text = .error (.version text) := by
  rw [← exists_parse_iff] at h
  unfold parse at h ⊢
  cases hc : Components.ofText? text.toList with
  | none => rfl
  | some c => exact absurd ⟨_, by rw [hc]⟩ h

/-- In a text that has the shape, digits of any script write the major number. -/
theorem major_of_shape (hv : parse text = .ok v) (hs : ∃ s : Shape, s.text = text.toList) :
    v.major = Text.numeral (text.toList.takeWhile Text.isDecimal) :=
  Components.major_of_ofShape? (ofShape?_of_hasShape hv (Components.isSome_ofShape?_iff.mpr hs))

/-- In any other text only ASCII digits do. -/
theorem major_of_pieces (hv : parse text = .ok v) (hs : ¬∃ s : Shape, s.text = text.toList) :
    v.major = Text.numeral (text.toList.takeWhile Char.isDigit) :=
  (Components.major_of_ofPieces? (ofPieces?_of_not_hasShape hv fun h =>
    hs (Components.isSome_ofShape?_iff.mp h))).1

/-- A text is read just if it shows a version, by a shape or by pieces, and any other is refused by
name.  What is read keeps the text, and its major number is the one in front. -/
theorem parse_outcome (text : String) :
    ((∃ v, parse text = .ok v) ↔ IsVersionText text) ∧
    (¬IsVersionText text → parse text = .error (.version text)) ∧
    ∀ v, parse text = .ok v → v.text = text ∧
      ((∃ s : Shape, s.text = text.toList) →
        v.major = Text.numeral (text.toList.takeWhile Text.isDecimal)) ∧
      ((¬∃ s : Shape, s.text = text.toList) →
        v.major = Text.numeral (text.toList.takeWhile Char.isDigit)) := by
  refine ⟨exists_parse_iff, parse_of_not_isVersionText, fun v hv => ⟨?_, ?_, ?_⟩⟩
  · exact (parse_eq_ok_iff.mp hv).2
  · exact major_of_shape hv
  · exact major_of_pieces hv

/-- Of two digits in different scripts, both count in a text that has the shape, and only the first
does where a text is read by its pieces. -/
theorem parse_outcome_scripts :
    (∃ v, parse "1٢-rc.1" = .ok v ∧ v.major = 12) ∧ (∃ v, parse "1٢.x" = .ok v ∧ v.major = 1) ∧
      parse "٢.x" = .error (.version "٢.x") := by
  refine ⟨⟨_, rfl, ?_⟩, ⟨_, rfl, ?_⟩, ?_⟩
  · exact ((parse_outcome "1٢-rc.1").2.2 _ rfl).2.1 (by decide)
  · exact ((parse_outcome "1٢.x").2.2 _ rfl).2.2 (by decide)
  · exact (parse_outcome "٢.x").2.1 (by decide +kernel)

end Version

end Versioning
