/-! Texts cut at a separator. -/

namespace Versioning.Text

/-- What stands before the first separator, and what stands after it if there is one. -/
def cutAt (separator : Char) (text : List Char) : List Char × Option (List Char) :=
  (text.takeWhile (· != separator), (text.dropWhile (· != separator)).tail?)

theorem bne_of_not_mem {c : Char} {text : List Char} (h : c ∉ text) :
    ∀ x ∈ text, (x != c) = true := fun x hx => by
  simp only [bne_iff_ne]
  rintro rfl
  exact h hx

theorem cutAt_append {c : Char} {before after : List Char} (h : c ∉ before) :
    cutAt c (before ++ c :: after) = (before, some after) := by
  have hb := bne_of_not_mem h
  simp [cutAt, List.takeWhile_append_of_pos hb, List.dropWhile_append_of_pos hb]

/-- The pieces between separators that are two equal characters in a row, found from the left. -/
def splitOnPair (c : Char) : List Char → List (List Char)
  | [] => [[]]
  | [last] => [[last]]
  | first :: second :: rest =>
    if first == c && second == c then [] :: splitOnPair c rest
    else (splitOnPair c (second :: rest)).modifyHead (first :: ·)

theorem splitOnPair_ne_nil (c : Char) (text : List Char) : splitOnPair c text ≠ [] := by
  fun_induction splitOnPair c text with
  | case1 => simp
  | case2 => simp
  | case3 => simp
  | case4 first second rest h ih => simpa using ih

/-- Nothing but the separators is lost. -/
theorem intercalate_splitOnPair (c : Char) (text : List Char) :
    [c, c].intercalate (splitOnPair c text) = text := by
  fun_induction splitOnPair c text with
  | case1 => rfl
  | case2 => simp
  | case3 first second rest h ih =>
    obtain ⟨rfl, rfl⟩ : first = c ∧ second = c := by simpa using h
    obtain ⟨piece, pieces, hp⟩ := List.exists_cons_of_ne_nil (splitOnPair_ne_nil second rest)
    simp_all [List.intercalate]
  | case4 first second rest h ih =>
    obtain ⟨piece, pieces, hp⟩ :=
      List.exists_cons_of_ne_nil (splitOnPair_ne_nil c (second :: rest))
    rw [hp] at ih ⊢
    cases pieces <;> simp_all [List.intercalate]

section

variable {c x : Char} {text rest : List Char}

theorem splitOnPair_cons (hx : x ≠ c) :
    splitOnPair c (x :: text) = (splitOnPair c text).modifyHead (x :: ·) := by
  cases text with
  | nil => rfl
  | cons second rest => rw [splitOnPair, if_neg (by simp [hx])]

theorem exists_splitOnPair_concat (hx : x ≠ c) (text : List Char) :
    ∃ pieces last, splitOnPair c text = pieces ++ [last] ∧
      splitOnPair c (text ++ [x]) = pieces ++ [last ++ [x]] := by
  fun_induction splitOnPair c text with
  | case1 => exact ⟨[], [], rfl, rfl⟩
  | case2 last => exact ⟨[], [last], rfl, by simp [splitOnPair, hx]⟩
  | case3 first second rest h ih =>
    obtain ⟨pieces, last, hp, hl⟩ := ih
    refine ⟨[] :: pieces, last, by simp [hp], ?_⟩
    simp [splitOnPair, h, hl]
  | case4 first second rest h ih =>
    obtain ⟨pieces, last, hp, hl⟩ := ih
    have hl' : splitOnPair c (first :: second :: rest ++ [x]) =
        (pieces ++ [last ++ [x]]).modifyHead (first :: ·) := by
      rw [← hl]
      simp [splitOnPair, h]
    rw [hl', hp]
    cases pieces with
    | nil => exact ⟨[], first :: last, rfl, rfl⟩
    | cons piece pieces => exact ⟨(first :: piece) :: pieces, last, rfl, rfl⟩

theorem splitOnPair_eq_singleton (h : ¬[c, c] <:+: text) : splitOnPair c text = [text] := by
  fun_induction splitOnPair c text with
  | case1 => rfl
  | case2 => rfl
  | case3 first second rest hpair =>
    obtain ⟨rfl, rfl⟩ : first = c ∧ second = c := by simpa using hpair
    exact absurd ⟨[], rest, rfl⟩ h
  | case4 first second rest _ ih =>
    rw [ih fun hi => h (hi.trans (List.infix_cons (List.infix_refl _)))]
    rfl

/-- A pair of separators that does not follow a separator ends the first piece. -/
theorem splitOnPair_append (hx : x ≠ c) (h : ¬[c, c] <:+: text) :
    splitOnPair c (text ++ x :: c :: c :: rest) = (text ++ [x]) :: splitOnPair c rest := by
  have hpair : splitOnPair c (x :: c :: c :: rest) = [x] :: splitOnPair c rest := by
    rw [splitOnPair_cons hx]
    simp [splitOnPair]
  fun_induction splitOnPair c text with
  | case1 => exact hpair
  | case2 last =>
    rw [List.cons_append, List.nil_append, splitOnPair, if_neg (by simp [hx]), hpair]
    rfl
  | case3 first second rest hp =>
    obtain ⟨rfl, rfl⟩ : first = c ∧ second = c := by simpa using hp
    exact absurd ⟨[], rest, rfl⟩ h
  | case4 first second text hp ih =>
    have ih := ih fun hi => h (hi.trans (List.infix_cons (List.infix_refl _)))
    rw [List.cons_append] at ih
    rw [List.cons_append, List.cons_append, splitOnPair, if_neg hp, ih]
    rfl

end

/-- The text after `start`, if the text starts with it. -/
def dropStart? : (start text : List Char) → Option (List Char)
  | [], text => some text
  | _ :: _, [] => none
  | s :: start, c :: text => if s == c then dropStart? start text else none

theorem dropStart?_eq_some_iff {start text rest : List Char} :
    dropStart? start text = some rest ↔ text = start ++ rest := by
  induction start generalizing text with
  | nil => simp [dropStart?]
  | cons s start ih =>
    cases text with
    | nil => simp [dropStart?]
    | cons c text =>
      by_cases h : s = c
      · simp [dropStart?, h, ih]
      · simp [dropStart?, h, Ne.symm h]

end Versioning.Text
