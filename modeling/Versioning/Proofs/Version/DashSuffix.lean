import Versioning.Proofs.Version.Grammar

/-! Texts of versions with a dash and a suffix behind them.  Such a text shows a version again, of
the same release if the text before the dash has the usual shape.  Where that is read by its pieces,
the dash takes the minor number away if it comes to stand in the second piece, and the pieces of the
suffix may give numbers that were missing; and a text that only lacks what follows a dash or a plus
sign at its end gets the usual shape. -/

namespace Versioning

namespace Text

/-- A text with a mark, cut at its last dash: the mark is the dash, or stands before it. -/
theorem append_cons_eq_append_dash {x : Char} {before after text suffix : List Char}
    (h : before ++ x :: after = text ++ '-' :: suffix) (hx : x ∉ suffix) :
    x = '-' ∧ before = text ∨
      ∃ rest, text = before ++ x :: rest ∧ after = rest ++ '-' :: suffix := by
  rcases List.append_eq_append_iff.mp h with ⟨between, rfl, hcut⟩ | ⟨between, rfl, hcut⟩
  · cases between with
    | nil => exact .inl ⟨(List.cons.inj hcut).1, (List.append_nil before).symm⟩
    | cons y rest =>
      obtain ⟨rfl, rfl⟩ := List.cons.inj hcut
      exact .inr ⟨rest, rfl, rfl⟩
  · cases between with
    | nil => exact .inl ⟨(List.cons.inj hcut).1.symm, List.append_nil text⟩
    | cons y rest =>
      obtain ⟨rfl, rfl⟩ := List.cons.inj hcut
      simp at hx

end Text

namespace Shape

variable {rest : List Char}

/-- What follows a dash goes on with the last part, or is the prerelease. -/
theorem exists_text_append_dash (s : Shape) (hne : rest ≠ []) (hplus : '+' ∉ rest) :
    ∃ s' : Shape, s'.text = s.text ++ '-' :: rest ∧
      s'.components.release = s.components.release := by
  cases hb : s.build with
  | some build =>
    refine ⟨s.withTail s.prerelease (some (build ++ '-' :: rest)) s.isPrerelease (by simp), ?_, rfl⟩
    simp [withTail, text, numbers, tail, hb, Text.marked]
  | none =>
    cases hp : s.prerelease with
    | some prerelease =>
      have hprerelease := s.isPrerelease prerelease hp
      refine ⟨s.withTail (some (prerelease ++ '-' :: rest)) none
        (by simpa [hplus] using hprerelease.2) (by simp), ?_, rfl⟩
      simp [withTail, text, numbers, tail, hb, hp, Text.marked]
    | none =>
      refine ⟨s.withTail (some rest) none (by simpa using ⟨hne, hplus⟩) (by simp), ?_, rfl⟩
      simp [withTail, text, numbers, tail, hb, hp, Text.marked]

/-- What follows a plus sign goes on with the build, or is the build. -/
theorem exists_text_append_plus (s : Shape) (hne : rest ≠ []) :
    ∃ s' : Shape, s'.text = s.text ++ '+' :: rest ∧
      s'.components.release = s.components.release := by
  cases hb : s.build with
  | some build =>
    refine ⟨s.withTail s.prerelease (some (build ++ '+' :: rest)) s.isPrerelease (by simp), ?_, rfl⟩
    simp [withTail, text, numbers, tail, hb, Text.marked]
  | none =>
    refine ⟨s.withTail s.prerelease (some rest) s.isPrerelease (by simpa using hne), ?_, rfl⟩
    simp [withTail, text, numbers, tail, hb, Text.marked]

/-- A text that gets the shape from a dash and a suffix has it already, or up to a dash or a plus
sign at its end. -/
theorem exists_text_of_append_dash {s : Shape} {text suffix : List Char}
    (h : s.text = text ++ '-' :: suffix) (hdash : '-' ∉ suffix) (hplus : '+' ∉ suffix) :
    (∃ s' : Shape, s'.text = text) ∨
      ∃ (s' : Shape) (x : Char), (x = '-' ∨ x = '+') ∧ s'.text ++ [x] = text := by
  cases hb : s.build with
  | some build =>
    have htext : s.unbuilt.text ++ '+' :: build = text ++ '-' :: suffix := by
      rw [← h, s.text_eq_unbuilt, hb, Text.marked]
    rcases Text.append_cons_eq_append_dash htext hplus with ⟨hmark, -⟩ | ⟨rest, rfl, -⟩
    · simp at hmark
    · cases rest with
      | nil => exact .inr ⟨s.unbuilt, '+', .inr rfl, rfl⟩
      | cons y rest =>
        obtain ⟨s', hs', -⟩ := s.unbuilt.exists_text_append_plus (List.cons_ne_nil y rest)
        exact .inl ⟨s', hs'⟩
  | none =>
    rw [s.text_eq_unbuilt, hb, text_unbuilt, Text.marked, List.append_nil] at h
    cases hp : s.prerelease with
    | some prerelease =>
      let bare := s.withTail none none (by simp) (by simp)
      have hbare : bare.text = s.numbers := List.append_nil _
      have htext : bare.text ++ '-' :: prerelease = text ++ '-' :: suffix := by
        rw [← h, hbare, hp, Text.marked]
      rcases Text.append_cons_eq_append_dash htext hdash with ⟨-, hs'⟩ | ⟨rest, rfl, hrest⟩
      · exact .inl ⟨bare, hs'⟩
      · cases rest with
        | nil => exact .inr ⟨bare, '-', .inl rfl, rfl⟩
        | cons y rest =>
          have hrest_plus : '+' ∉ y :: rest := fun hmem =>
            (s.isPrerelease prerelease hp).2 (hrest ▸ List.mem_append_left _ hmem)
          obtain ⟨s', hs', -⟩ := bare.exists_text_append_dash (List.cons_ne_nil y rest) hrest_plus
          exact .inl ⟨s', hs'⟩
    | none =>
      have hnumbers : '-' ∉ s.numbers := s.not_mem_numbers (by decide) (by decide)
      rw [hp, Text.marked, List.append_nil] at h
      simp [h] at hnumbers

end Shape

namespace Components

variable {text suffix : List Char} {c : Components}

/-- What the text shows but for a dash or a plus sign at its end, with nothing behind it. -/
def unfinished? (text : List Char) : Option Components :=
  if text.getLast? = some '-' ∨ text.getLast? = some '+' then ofShape? text.dropLast else none

theorem unfinished?_eq_some_iff : unfinished? text = some c ↔
    ∃ (s : Shape) (x : Char), (x = '-' ∨ x = '+') ∧ s.text ++ [x] = text ∧ s.components = c := by
  unfold unfinished?
  constructor
  · intro h
    split at h
    next hlast =>
      obtain ⟨s, hs, rfl⟩ := exists_shape_of_ofShape? h
      have hcut {x : Char} (hx : text.getLast? = some x) : s.text ++ [x] = text := by
        rw [hs]
        exact List.dropLast_append_getLast? x hx
      rcases hlast with hlast | hlast
      · exact ⟨s, '-', .inl rfl, hcut hlast, rfl⟩
      · exact ⟨s, '+', .inr rfl, hcut hlast, rfl⟩
    next => contradiction
  · rintro ⟨s, x, hx, rfl, rfl⟩
    rw [List.getLast?_concat, List.dropLast_concat, if_pos (by simpa using hx), ofShape?_text]

/-- No number is lost by a dash in the second piece, or found in the pieces behind it. -/
def KeepsPieces (text suffix : List Char) (release : Release) : Prop :=
  ((text.splitOn '.').length = 2 → release.minor = 0) ∧
    ∀ piece ∈ (suffix.splitOn '.').tail.take (3 - (text.splitOn '.').length),
      leadingNumber piece = 0

instance (text suffix : List Char) (release : Release) :
    Decidable (KeepsPieces text suffix release) := inferInstanceAs (Decidable (_ ∧ _))

theorem releaseOfPieces_append_dash_iff (hdash : '-' ∉ suffix) :
    releaseOfPieces (text ++ '-' :: suffix) = releaseOfPieces text ↔
      KeepsPieces text suffix (releaseOfPieces text) := by
  obtain ⟨pieces, last, htext, happend⟩ :=
    Text.exists_splitOn_append_cons (by decide : '-' ≠ '.') text
  obtain ⟨first, more, hsuffix⟩ := List.exists_cons_of_ne_nil (List.splitOn_ne_nil '.' suffix)
  have hsplit := happend suffix first more hsuffix
  have hmajor : leadingNumber (text ++ '-' :: suffix) = leadingNumber text :=
    leadingNumber_append_cons rfl
  have hlast : leadingNumber (last ++ '-' :: first) = leadingNumber last :=
    leadingNumber_append_cons rfl
  have hmore : ∀ piece ∈ more, '-' ∉ piece := fun piece hp hmem => by
    have hpiece : piece ∈ suffix.splitOn '.' := hsuffix ▸ List.mem_cons_of_mem first hp
    exact hdash ((Text.mem_splitOn hpiece).1.subset hmem)
  simp only [KeepsPieces, releaseOfPieces, Release.mk.injEq, hsuffix, htext, hsplit, hmajor]
  rcases pieces with _ | ⟨before, _ | ⟨second, rest⟩⟩
  · -- The second piece is one of the suffix, and so is the third.
    rcases more with _ | ⟨second, _ | ⟨third, more⟩⟩
    · simp
    · simp [hmore second]
    · simp [hmore second]
  · -- The dash stands in the second piece, and the third one is one of the suffix.
    cases more <;> simp [@eq_comm Int 0]
  · -- The dash ends the number of the third piece, or stands behind it.
    cases rest <;> simp [hlast]

/-- A dash and the suffix change none of the numbers, where those are the given ones. -/
def KeepsRelease (text suffix : List Char) (release : Release) : Prop :=
  (∃ s : Shape, s.text = text) ∨
    (∀ c ∈ unfinished? text, c.release = release) ∧
      (unfinished? text = none → KeepsPieces text suffix release)

instance (text suffix : List Char) (release : Release) :
    Decidable (KeepsRelease text suffix release) := inferInstanceAs (Decidable (_ ∨ _ ∧ _))

/-- Where only what follows a dash or a plus sign is missing, it is read from then on. -/
theorem exists_ofText?_append_dash_of_unfinished (hu : unfinished? text = some c)
    (hplus : '+' ∉ suffix) (hblank : (text ++ '-' :: suffix).any Text.isBlank = false) :
    ∃ c', ofText? (text ++ '-' :: suffix) = some c' ∧ c'.release = c.release := by
  obtain ⟨s, x, hx, rfl, rfl⟩ := unfinished?_eq_some_iff.mp hu
  have hcons : s.text ++ [x] ++ '-' :: suffix = s.text ++ x :: '-' :: suffix := by simp
  rw [hcons] at hblank ⊢
  suffices h : ∃ s' : Shape, s'.text = s.text ++ x :: '-' :: suffix ∧
      s'.components.release = s.components.release by
    obtain ⟨s', hs', hrelease⟩ := h
    exact ⟨_, hs' ▸ ofText?_shape (hs' ▸ hblank), hrelease⟩
  rcases hx with rfl | rfl
  · exact s.exists_text_append_dash (List.cons_ne_nil '-' suffix) (by simpa using hplus)
  · exact s.exists_text_append_plus (List.cons_ne_nil '-' suffix)

theorem exists_ofText?_append_dash (h : ofText? text = some c)
    (hhead : text.head?.any Char.isDigit = true) (hne : suffix ≠ []) (hdash : '-' ∉ suffix)
    (hplus : '+' ∉ suffix) (hblank : suffix.any Text.isBlank = false) :
    ∃ c', ofText? (text ++ '-' :: suffix) = some c' ∧
      (c'.release = c.release ↔ KeepsRelease text suffix c.release) := by
  have hboth : (text ++ '-' :: suffix).any Text.isBlank = false := by
    rw [List.any_append, not_isBlank_of_ofText? h, List.any_cons, hblank]
    decide
  by_cases hshape : ∃ s : Shape, s.text = text
  case pos =>
    obtain ⟨s, rfl⟩ := hshape
    obtain ⟨s', hs', hrelease⟩ := s.exists_text_append_dash hne hplus
    obtain rfl := Option.some.inj ((ofText?_shape (not_isBlank_of_ofText? h)).symm.trans h)
    exact ⟨_, hs' ▸ ofText?_shape (hs' ▸ hboth), iff_of_true hrelease (.inl ⟨s, rfl⟩)⟩
  case neg =>
    rw [KeepsRelease, or_iff_right hshape]
    cases hu : unfinished? text with
    | some bare =>
      obtain ⟨c', hc', hrelease⟩ :=
        exists_ofText?_append_dash_of_unfinished hu hplus hboth
      exact ⟨c', hc', by simp [hrelease]⟩
    | none =>
      have hpieces : ofPieces? text = some c := (ofText?_cases h).resolve_left fun h =>
        hshape (isSome_ofShape?_iff.mp (by rw [h]; rfl))
      have hnot : ofShape? (text ++ '-' :: suffix) = none := by
        by_contra hsome
        obtain ⟨s, hs⟩ := isSome_ofShape?_iff.mp (Option.isSome_iff_ne_none.mpr hsome)
        rcases Shape.exists_text_of_append_dash hs hdash hplus with hs | ⟨s', x, hx, hs'⟩
        · exact hshape hs
        · rw [unfinished?_eq_some_iff.mpr ⟨s', x, hx, hs', rfl⟩] at hu
          contradiction
      obtain ⟨c', hc'⟩ := exists_ofPieces? (Text.head?_append_any hhead ('-' :: suffix))
        (.inr (by simp))
      refine ⟨c', by rw [ofText?, if_neg (by simp [hboth]), hnot, hc', Option.none_or], ?_⟩
      rw [release_of_ofPieces? hpieces, release_of_ofPieces? hc',
        releaseOfPieces_append_dash_iff hdash]
      simp

end Components

namespace Version

variable {text suffix : String} {v : Version}

/-- ASCII letters, ASCII digits and dots, one of them at least. -/
def IsSuffix (suffix : String) : Prop :=
  suffix ≠ "" ∧ ∀ c ∈ suffix.toList, c.isAlphanum = true ∨ c = '.'

-- The characters of the text are tried, not all that there are.
instance (suffix : String) : Decidable (IsSuffix suffix) :=
  @instDecidableAnd _ _ inferInstance (List.decidableBAll _ _)

theorem IsSuffix.not_mem {x : Char} (h : IsSuffix suffix) (hx : x.isAlphanum = false ∧ x ≠ '.') :
    x ∉ suffix.toList := fun hmem => by
  rcases h.2 x hmem with hx' | hx'
  · rw [hx.1] at hx'
    contradiction
  · exact hx.2 hx'

theorem IsSuffix.not_isBlank (h : IsSuffix suffix) :
    suffix.toList.any Text.isBlank = false := by
  rw [List.any_eq_false]
  intro x hx
  rcases h.2 x hx with hx | rfl
  · simp [Text.isBlank_eq_false_of_isAlphanum hx]
  · decide

/-- Behind a text that starts with an ASCII digit, a dash and a suffix give a version again.  It is
of the same release if the text has the usual shape; or lacks of it only what follows a dash or a
plus sign, and the numbers in front of that are those of the text; or neither, and then if the dash
takes no minor number away and the pieces of the suffix give no number that was missing. -/
theorem exists_parse_append_dash (hv : parse text = .ok v)
    (hhead : text.toList.head?.any Char.isDigit = true) (hsuffix : IsSuffix suffix) :
    ∃ w, parse (text ++ "-" ++ suffix) = .ok w ∧
      (w.release = v.release ↔
        Components.KeepsRelease text.toList suffix.toList v.release) := by
  have htoList : (text ++ "-" ++ suffix).toList = text.toList ++ '-' :: suffix.toList := by simp
  have hne : suffix.toList ≠ [] := by simpa using hsuffix.1
  obtain ⟨c, hc, hrelease⟩ := Components.exists_ofText?_append_dash (parse_eq_ok_iff.mp hv).1
    hhead hne (hsuffix.not_mem (by decide)) (hsuffix.not_mem (by decide)) hsuffix.not_isBlank
  exact ⟨{ c with text := text ++ "-" ++ suffix }, parse_eq_ok_iff.mpr ⟨htoList ▸ hc, rfl⟩,
    hrelease⟩

/-- The dash may stand in a build or behind four pieces, and behind two pieces the suffix may have
others than numbers. -/
theorem exists_parse_append_dash_kept :
    (∃ w, parse "1.2+b-rc.5" = .ok w ∧ w.release = ⟨1, 2, 0⟩) ∧
      (∃ w, parse "1.2.3.4-rc.5" = .ok w ∧ w.release = ⟨1, 2, 3⟩) ∧
      ∃ w, parse "1.x-rc.beta5" = .ok w ∧ w.release = ⟨1, 0, 0⟩ := by
  refine ⟨?_, ?_, ?_⟩
  · obtain ⟨w, hw, h⟩ := @exists_parse_append_dash "1.2+b" "rc.5" _ rfl (by decide)
      (by decide +kernel)
    exact ⟨w, hw, h.mpr (by decide)⟩
  · obtain ⟨w, hw, h⟩ := @exists_parse_append_dash "1.2.3.4" "rc.5" _ rfl (by decide)
      (by decide +kernel)
    exact ⟨w, hw, h.mpr (by decide)⟩
  · obtain ⟨w, hw, h⟩ := @exists_parse_append_dash "1.x" "rc.beta5" _ rfl (by decide)
      (by decide +kernel)
    exact ⟨w, hw, h.mpr (by decide)⟩

/-- A dash in the second piece takes the minor number away; a piece of the suffix is the third one;
and a dash is read again as the mark of a prerelease. -/
theorem exists_release_changes : IsSuffix "a" ∧ IsSuffix "a.5" ∧
    (∃ v w, parse "1.2b" = .ok v ∧ parse ("1.2b" ++ "-" ++ "a") = .ok w ∧
      v.release = ⟨1, 2, 0⟩ ∧ w.release = ⟨1, 0, 0⟩) ∧
    (∃ v w, parse "1.x" = .ok v ∧ parse ("1.x" ++ "-" ++ "a.5") = .ok w ∧
      v.release = ⟨1, 0, 0⟩ ∧ w.release = ⟨1, 0, 5⟩) ∧
    ∃ v w, parse "1.2-" = .ok v ∧ parse ("1.2-" ++ "-" ++ "a") = .ok w ∧
      v.release = ⟨1, 0, 0⟩ ∧ w.release = ⟨1, 2, 0⟩ := by
  refine ⟨?_, ?_, ⟨_, _, rfl, rfl, ?_⟩, ⟨_, _, rfl, rfl, ?_⟩, ⟨_, _, rfl, rfl, ?_⟩⟩ <;>
    decide +kernel

end Version

end Versioning
