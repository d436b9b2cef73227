import Versioning.Text.Spans

/-! White space, and texts cut and trimmed at it. -/

namespace Versioning.Text

def blanks : Spans := [
  (0x9, 0xD), (0x1C, 0x20), (0x85, 0x85), (0xA0, 0xA0), (0x1680, 0x1680), (0x2000, 0x200A),
  (0x2028, 0x2029), (0x202F, 0x202F), (0x205F, 0x205F), (0x3000, 0x3000)]

def isBlank (c : Char) : Bool := blanks.covers c

theorem ne_of_isBlank {c x : Char} (hx : isBlank x = true) (hc : isBlank c = false) : x ≠ c := by
  rintro rfl
  rw [hx] at hc
  contradiction

/-- The text from its first character that is not blank. -/
def stripLeft (text : List Char) : List Char := text.dropWhile isBlank

/-- The text up to its last character that is not blank. -/
def stripRight (text : List Char) : List Char := (text.reverse.dropWhile isBlank).reverse

def strip (text : List Char) : List Char := stripRight (stripLeft text)

theorem strip_cons {c : Char} {text : List Char} (hc : isBlank c = true) :
    strip (c :: text) = strip text := by
  rw [strip, stripLeft, List.dropWhile_cons_of_pos hc]
  rfl

theorem strip_concat {c : Char} {text : List Char} (hc : isBlank c = true) :
    strip (text ++ [c]) = strip text := by
  unfold strip stripLeft stripRight
  rw [List.dropWhile_append]
  split
  next h =>
    rw [List.isEmpty_iff.mp h, List.dropWhile_cons_of_pos hc]
    rfl
  next h => simp [hc]

/-- What blanks in front of a text and behind it do not change is the same for the trimmed text. -/
theorem apply_strip {α : Type} {f : List Char → α}
    (hcons : ∀ c text, isBlank c = true → f (c :: text) = f text)
    (hconcat : ∀ c text, isBlank c = true → f (text ++ [c]) = f text) (text : List Char) :
    f (strip text) = f text := by
  have hleft (text : List Char) : f (stripLeft text) = f text := by
    induction text with
    | nil => rfl
    | cons c rest ih =>
      by_cases hc : isBlank c = true
      · rw [hcons c rest hc, ← ih, stripLeft, List.dropWhile_cons_of_pos hc]
        rfl
      · rw [stripLeft, List.dropWhile_cons_of_neg hc]
  have hright (text : List Char) : f (text.dropWhile isBlank).reverse = f text.reverse := by
    induction text with
    | nil => rfl
    | cons c rest ih =>
      by_cases hc : isBlank c = true
      · rw [List.reverse_cons, hconcat c _ hc, ← ih, List.dropWhile_cons_of_pos hc]
      · rw [List.dropWhile_cons_of_neg hc]
  rw [strip, stripRight, hright, List.reverse_reverse, hleft]

theorem strip_strip (text : List Char) : strip (strip text) = strip text :=
  apply_strip (fun _ _ => strip_cons) (fun _ _ => strip_concat) text

theorem isBlank_eq_false_of_strip_eq_cons {c : Char} {text rest : List Char}
    (h : strip text = c :: rest) : isBlank c = false := by
  have hprefix : strip text <+: stripLeft text := by
    rw [← List.reverse_suffix, strip, stripRight, List.reverse_reverse]
    exact List.dropWhile_suffix isBlank
  obtain ⟨after, hafter⟩ := hprefix
  have hne : stripLeft text ≠ [] := by simp [← hafter, h]
  have hhead : isBlank ((stripLeft text).head hne) = false := List.head_dropWhile_not isBlank hne
  simpa [← hafter, h] using hhead

/-- The longest pieces of the text that hold no blank, in order. -/
def words (text : List Char) : List (List Char) :=
  (text.splitOnP isBlank).filter fun word => !word.isEmpty

end Versioning.Text
