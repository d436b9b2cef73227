import Versioning.Proofs.Version.Grammar

/-! Versions read from their normalized texts.  Such a text always shows a version of the same
release.  It shows the same prerelease, too, unless a plus sign in that is taken for the mark of a
build, or a dot for the end of what belongs to the dash.  Only texts without the usual shape give
such prereleases. -/

namespace Versioning

namespace Components

variable {text q : List Char} {c : Components} {p : String}

/-! ### What a prerelease consists of -/

theorem nonempty?_eq_some_iff : nonempty? text = some p ↔ text ≠ [] ∧ p.toList = text := by
  unfold nonempty?
  split
  next h => simp_all
  next h =>
    rw [Option.some.injEq, ← String.toList_inj, String.toList_ofList, eq_comm]
    simp_all

theorem looseTail_subset {pieces : List (List Char)} (h : (looseTail pieces).2 = some p) :
    p.toList ≠ [] ∧ p.toList ⊆ ['.'].intercalate pieces := by
  cases pieces with
  | nil => cases h
  | cons third rest =>
    rw [looseTail_snd, Option.or_eq_some_iff] at h
    rcases h with h | ⟨-, h⟩
    · obtain ⟨suffix, hcut, h⟩ := Option.bind_eq_some_iff.mp h
      obtain ⟨hne, htoList⟩ := nonempty?_eq_some_iff.mp h
      rw [htoList]
      exact ⟨hne, List.Subset.trans (Text.cutAt_subset hcut)
        (Text.prefix_intercalate_cons '.' third rest).subset⟩
    · obtain ⟨hne, htoList⟩ := nonempty?_eq_some_iff.mp h
      rw [htoList]
      exact ⟨hne, (Text.suffix_intercalate_cons '.' third rest).subset⟩

/-- A prerelease has characters, all of them from the text; where the text has the shape, none of
them is a plus sign. -/
theorem prerelease_subset_of_ofShape? (h : ofShape? text = some c) (hp : c.prerelease = some p) :
    p.toList ≠ [] ∧ p.toList ⊆ text ∧ '+' ∉ p.toList := by
  obtain ⟨s, rfl, rfl⟩ := exists_shape_of_ofShape? h
  obtain ⟨part, hpart, rfl⟩ := Option.map_eq_some_iff.mp hp
  obtain ⟨hne, hplus⟩ := s.isPrerelease part hpart
  rw [String.toList_ofList]
  refine ⟨hne, fun x hx => ?_, hplus⟩
  simp [Shape.text, Shape.tail, hpart, Text.marked, hx]

theorem prerelease_subset_of_ofPieces? (h : ofPieces? text = some c)
    (hp : c.prerelease = some p) : p.toList ≠ [] ∧ p.toList ⊆ text := by
  obtain ⟨hhead, hdot | ⟨hdot, hdash⟩⟩ := ofPieces?_cases h
  · obtain ⟨first, second, more, hsplit⟩ := Text.exists_splitOn_of_mem hdot
    rw [ofPieces?_of_splitOn hhead hsplit] at h
    obtain rfl := Option.some.inj h
    obtain ⟨hne, hsubset⟩ := looseTail_subset hp
    have hjoin : ['.'].intercalate (text.splitOn '.') = text := List.intercalate_splitOn '.'
    have hsuffix : ['.'].intercalate more <:+ text := by
      rw [← hjoin, hsplit]
      exact (Text.suffix_intercalate_cons '.' second more).trans
        (Text.suffix_intercalate_cons '.' first (second :: more))
    exact ⟨hne, List.Subset.trans hsubset hsuffix.subset⟩
  · obtain ⟨suffix, hcut⟩ := Text.exists_cutAt_of_mem hdash
    rw [ofPieces?_of_dash hhead (List.splitOn_eq_singleton hdot) hcut] at h
    obtain rfl := Option.some.inj h
    obtain ⟨hne, htoList⟩ := nonempty?_eq_some_iff.mp hp
    rw [htoList]
    exact ⟨hne, Text.cutAt_subset hcut⟩

theorem prerelease_subset_of_ofText? (h : ofText? text = some c) (hp : c.prerelease = some p) :
    p.toList ≠ [] ∧ p.toList ⊆ text := by
  rcases ofText?_cases h with h | h
  · obtain ⟨hne, hsubset, -⟩ := prerelease_subset_of_ofShape? h hp
    exact ⟨hne, hsubset⟩
  · exact prerelease_subset_of_ofPieces? h hp

/-! ### What is read behind a dash -/

/-- The prerelease is read back from behind the dash: it has no plus sign, or else no dot and
nothing on one side of its first plus sign. -/
def ReadsBack (q : List Char) : Prop :=
  '+' ∉ q ∨ '.' ∉ q ∧ (q.takeWhile (· != '+') = [] ∨ q.dropWhile (· != '+') = ['+'])

instance (q : List Char) : Decidable (ReadsBack q) := inferInstanceAs (Decidable (_ ∨ _))

theorem readsBack_append_iff {before after : List Char} (h : '+' ∉ before) :
    ReadsBack (before ++ '+' :: after) ↔
      '.' ∉ before ++ '+' :: after ∧ (before = [] ∨ after = []) := by
  have hbefore := Text.bne_of_not_mem h
  rw [ReadsBack, List.takeWhile_append_of_pos hbefore, List.dropWhile_append_of_pos hbefore]
  simp

variable {major minor patch : Nat}

/-- What starts with a plus sign, or ends with its first one, is no prerelease with a build. -/
theorem ofShape?_numbers_of_bare {s : Shape} {before after : List Char} (h : '+' ∉ before)
    (hbare : before = [] ∨ after = []) :
    ofShape? (s.numbers ++ '-' :: (before ++ '+' :: after)) = none := by
  have hbefore := Text.bne_of_not_mem h
  rw [ofShape?_numbers_append s rfl (by simp)]
  simp only [dashedPart, List.takeWhile_append_of_pos hbefore, List.dropWhile_append_of_pos hbefore]
  cases before with
  | nil => rfl
  | cons x before =>
    obtain rfl := hbare.resolve_left (List.cons_ne_nil x before)
    rfl

theorem leadingNumber_toDigits (n : Nat) : leadingNumber (Nat.toDigits 10 n) = n := by
  have hdigits : (Nat.toDigits 10 n).takeWhile Char.isDigit = Nat.toDigits 10 n :=
    List.takeWhile_eq_self_iff.mpr fun c hc => Text.isDigit_of_mem_toDigits hc
  rw [leadingNumber, hdigits, Text.numeral_toDigits]

theorem not_mem_toDigits {x : Char} (hx : x.isDigit = false) (n : Nat) :
    x ∉ Nat.toDigits 10 n := fun h => by
  rw [Text.isDigit_of_mem_toDigits h] at hx
  contradiction

/-- By its pieces, the prerelease goes on to the next dot, or is all that follows that. -/
theorem ofPieces?_numbers_dash {first : List Char} {more : List (List Char)}
    (hq : q.splitOn '.' = first :: more) :
    ofPieces? ((Shape.ofNumbers major minor patch).numbers ++ '-' :: q) = some {
      major, minor := some minor, patch := some patch
      prerelease := (nonempty? first).or (nonempty? (['.'].intercalate more)) } := by
  have htext : (Shape.ofNumbers major minor patch).numbers ++ '-' :: q =
      Nat.toDigits 10 major ++ '.' :: (Nat.toDigits 10 minor ++
        '.' :: (Nat.toDigits 10 patch ++ '-' :: q)) := by
    simp [Shape.numbers, Shape.ofNumbers, Text.marked]
  have hdash : ('-' :: q).splitOn '.' = ('-' :: first) :: more := by
    rw [List.splitOn_cons_eq_if_modifyHead, if_neg (by decide), hq]
    rfl
  have hsplit : (Nat.toDigits 10 major ++ '.' :: (Nat.toDigits 10 minor ++
      '.' :: (Nat.toDigits 10 patch ++ '-' :: q))).splitOn '.' = Nat.toDigits 10 major ::
        Nat.toDigits 10 minor :: (Nat.toDigits 10 patch ++ '-' :: first) :: more := by
    have hdot (n : Nat) : '.' ∉ Nat.toDigits 10 n := not_mem_toDigits rfl n
    rw [List.splitOn_append_cons_self, List.splitOn_append_cons_self,
      List.splitOn_eq_singleton (hdot major), List.splitOn_eq_singleton (hdot minor),
      Text.splitOn_append_of_not_mem (hdot patch) hdash]
    rfl
  have hhead : (Nat.toDigits 10 major ++ '.' :: (Nat.toDigits 10 minor ++
      '.' :: (Nat.toDigits 10 patch ++ '-' :: q))).head?.any Char.isDigit = true := by
    refine Text.head?_append_any ?_ _
    obtain ⟨x, digits, hx⟩ := List.exists_cons_of_ne_nil (Nat.toDigits_ne_nil (n := major))
    rw [hx]
    exact Text.isDigit_of_mem_toDigits (hx ▸ List.mem_cons_self)
  have hminor : (Nat.toDigits 10 minor).contains '-' = false := by
    simpa using not_mem_toDigits rfl minor
  have hcut : Text.cutAt '-' (Nat.toDigits 10 patch ++ '-' :: first) = _ :=
    Text.cutAt_append (not_mem_toDigits rfl patch)
  rw [htext, ofPieces?_of_splitOn hhead hsplit, leadingNumber_append_cons rfl, hminor]
  simp [looseTail, hcut, leadingNumber_toDigits]

/-- A prerelease with a dot that is read by its pieces loses identifiers. -/
theorem keys_pieces_ne {first second : List Char} {more : List (List Char)}
    (hq : q.splitOn '.' = first :: second :: more) :
    keys ((nonempty? first).or (nonempty? (['.'].intercalate (second :: more)))) ≠
      keys (some (String.ofList q)) := by
  have hdot : ∀ piece ∈ first :: second :: more, '.' ∉ piece := fun piece hp =>
    (Text.mem_splitOn (hq ▸ hp)).2
  have hkeys (t : List Char) : keys (some (String.ofList t)) =
      some ((t.splitOn '.').map Identifier.key) := by
    rw [keys, Option.map_some, String.toList_ofList]
  rw [hkeys, hq]
  unfold nonempty?
  split
  · split
    · simp [keys]
    · -- Nothing stands before the first dot, so that it separates no identifiers any more.
      rw [Option.none_or, hkeys,
        List.splitOn_intercalate '.' (fun piece hp => hdot piece (.tail first hp)) (by simp)]
      intro h
      simpa using congrArg (Option.map List.length) h
  · rw [Option.some_or, hkeys, List.splitOn_eq_singleton (hdot first (.head _))]
    simp

section Dash

variable (hblank : ∀ x ∈ q, Text.isBlank x = false)

include hblank

theorem ofText?_numbers_dash :
    ofText? ((Shape.ofNumbers major minor patch).numbers ++ '-' :: q) =
      (ofShape? ((Shape.ofNumbers major minor patch).numbers ++ '-' :: q)).or
        (ofPieces? ((Shape.ofNumbers major minor patch).numbers ++ '-' :: q)) := by
  have hdash : Text.isBlank '-' = false := by decide
  have hq : q.any Text.isBlank = false := by simpa using hblank
  rw [ofText?, if_neg]
  simp only [List.any_append, List.any_cons, Shape.not_isBlank_ofNumbers, hdash, hq]
  decide

/-- What is read by the shape, if the dash is followed by a prerelease and perhaps a build. -/
theorem ofText?_numbers_dash_of_shape {prerelease : List Char}
    (hprerelease : prerelease ≠ [] ∧ '+' ∉ prerelease) (build : Option (List Char))
    (hbuild : ∀ part ∈ build, part ≠ []) (hq : q = prerelease ++ Text.marked '+' build) :
    ofText? ((Shape.ofNumbers major minor patch).numbers ++ '-' :: q) = some {
      major, minor := some minor, patch := some patch
      prerelease := some (String.ofList prerelease), build := build.map String.ofList } := by
  let s := (Shape.ofNumbers major minor patch).withTail (some prerelease) build
    (by simpa using hprerelease) hbuild
  have htext : (Shape.ofNumbers major minor patch).numbers ++ '-' :: q = s.text := by
    rw [hq]
    rfl
  have hs : s.components = { (Shape.ofNumbers major minor patch).components with
      prerelease := some (String.ofList prerelease), build := build.map String.ofList } := rfl
  rw [ofText?_numbers_dash hblank, htext, ofShape?_text, Option.some_or, hs,
    Shape.components_ofNumbers]

/-- Behind the numbers and a dash, a prerelease is read back or another one is read. -/
theorem exists_ofText?_numbers_dash (hne : q ≠ []) :
    ∃ c, ofText? ((Shape.ofNumbers major minor patch).numbers ++ '-' :: q) = some c ∧
      c.release = ⟨major, minor, patch⟩ ∧
      (ReadsBack q → c.prerelease = some (String.ofList q)) ∧
      (¬ReadsBack q → keys c.prerelease ≠ keys (some (String.ofList q))) := by
  by_cases hplus : '+' ∈ q
  · obtain ⟨before, after, rfl, hbefore⟩ := List.eq_append_cons_of_mem hplus
    rw [readsBack_append_iff hbefore]
    by_cases hbare : before = [] ∨ after = []
    case neg =>
      -- The plus sign is taken for the mark of a build.
      obtain ⟨hbefore_ne, hafter_ne⟩ := not_or.mp hbare
      refine ⟨_, ofText?_numbers_dash_of_shape hblank ⟨hbefore_ne, hbefore⟩ (some after)
        (by simpa using hafter_ne) rfl, rfl, fun h => absurd h.2 hbare, fun _ => ?_⟩
      simpa [keys] using (keys_append_plus_ne before).symm
    case pos =>
      rw [and_iff_left hbare, not_not, ofText?_numbers_dash hblank,
        ofShape?_numbers_of_bare hbefore hbare, Option.none_or]
      by_cases hdot : '.' ∈ before ++ '+' :: after
      · obtain ⟨first, second, more, hq⟩ := Text.exists_splitOn_of_mem hdot
        exact ⟨_, ofPieces?_numbers_dash hq, rfl, fun h => absurd hdot h,
          fun _ => keys_pieces_ne hq⟩
      · refine ⟨_, ofPieces?_numbers_dash (List.splitOn_eq_singleton hdot), rfl, fun _ => ?_,
          fun h => absurd h hdot⟩
        simp [nonempty?]
  · exact ⟨_, ofText?_numbers_dash_of_shape hblank ⟨hne, hplus⟩ none (by simp)
      (by simp [Text.marked]), rfl, fun _ => rfl, fun h => absurd (.inl hplus) h⟩

end Dash

end Components

namespace Version

variable {text : String} {v w : Version}

/-- The prerelease, if there is one, is read back from the normalized text. -/
def ReadsBack (v : Version) : Prop := ∀ p ∈ v.prerelease, Components.ReadsBack p.toList

instance (v : Version) : Decidable v.ReadsBack :=
  inferInstanceAs (Decidable (∀ p ∈ v.prerelease, Components.ReadsBack p.toList))

theorem toList_normalize {major minor patch : Nat} (h : v.release = ⟨major, minor, patch⟩) :
    v.normalize.toList = (Shape.ofNumbers major minor patch).numbers ++
      Text.marked '-' (v.prerelease.map String.toList) := by
  have hdot : (toString ".").toList = ['.'] := rfl
  cases hp : v.prerelease <;>
    simp [Components.normalize, h, hp, hdot, Components.renderPart, toList_repr_natCast,
      Shape.numbers, Shape.ofNumbers, Text.marked]

theorem normalize_eq_iff (h : w.release = v.release) :
    w.normalize = v.normalize ↔ w.prerelease = v.prerelease := by
  rw [Components.normalize, Components.normalize, h, String.append_right_inj]
  cases w.prerelease <;> cases v.prerelease <;> simp [Components.renderPart]

/-- What is read from the normalized text of a version that was read. -/
theorem exists_parse_normalize_of_parse (hv : parse text = .ok v) :
    ∃ w, parse v.normalize = .ok w ∧ w.release = v.release ∧
      (v.ReadsBack → w.prerelease = v.prerelease) ∧
      (¬v.ReadsBack → Components.keys w.prerelease ≠ Components.keys v.prerelease) := by
  have hread := (parse_eq_ok_iff.mp hv).1
  obtain ⟨major, minor, patch, hrelease⟩ := (Components.isNatural_of_ofText? hread).exists_release
  have htoList := toList_normalize hrelease
  suffices h : ∃ c, Components.ofText? v.normalize.toList = some c ∧ c.release = v.release ∧
      (v.ReadsBack → c.prerelease = v.prerelease) ∧
      (¬v.ReadsBack → Components.keys c.prerelease ≠ Components.keys v.prerelease) by
    obtain ⟨c, hc, h⟩ := h
    exact ⟨{ c with text := v.normalize }, parse_eq_ok_iff.mpr ⟨hc, rfl⟩, h⟩
  cases hp : v.prerelease with
  | none =>
    have hback : v.ReadsBack := by simp [ReadsBack, hp]
    have hblank := Shape.not_isBlank_ofNumbers major minor patch
    rw [hp, Option.map_none, Text.marked, List.append_nil] at htoList
    rw [← Shape.text_ofNumbers] at htoList hblank
    rw [htoList, Components.ofText?_shape hblank, hrelease, Shape.components_ofNumbers]
    exact ⟨_, rfl, rfl, fun _ => rfl, fun h => absurd hback h⟩
  | some p =>
    have hback : v.ReadsBack ↔ Components.ReadsBack p.toList := by simp [ReadsBack, hp]
    obtain ⟨hne, hsubset⟩ := Components.prerelease_subset_of_ofText? hread hp
    have hblank : ∀ x ∈ p.toList, Text.isBlank x = false := fun x hx => by
      simpa using List.any_eq_false.mp (Components.not_isBlank_of_ofText? hread) x (hsubset hx)
    rw [htoList, hp, hrelease, hback]
    simpa [Text.marked] using Components.exists_ofText?_numbers_dash hblank hne

/-- Texts of the usual shape and texts without a plus sign give prereleases that are read back. -/
theorem readsBack_of_parse (hv : parse text = .ok v)
    (h : HasShape text ∨ '+' ∉ text.toList) : v.ReadsBack := by
  intro p hp
  refine .inl ?_
  rcases h with hshape | hplus
  · exact (Components.prerelease_subset_of_ofShape? (ofShape?_of_hasShape hv hshape) hp).2.2
  · have hread := (parse_eq_ok_iff.mp hv).1
    exact fun h => hplus ((Components.prerelease_subset_of_ofText? hread hp).2 h)

/-- The normalized text always shows a version of the same release.  It is equal to the given one,
and has the same normalized text, just if the prerelease is read back; and so it is if the text had
the usual shape or no plus sign. -/
theorem exists_parse_normalize (hv : parse text = .ok v) :
    (∃ w, parse v.normalize = .ok w ∧ w.release = v.release ∧
      (v.same w = true ↔ v.ReadsBack) ∧ (w.normalize = v.normalize ↔ v.ReadsBack)) ∧
    (HasShape text ∨ '+' ∉ text.toList → v.ReadsBack) := by
  obtain ⟨w, hw, hrelease, hback, hnot⟩ := exists_parse_normalize_of_parse hv
  refine ⟨⟨w, hw, hrelease, ⟨fun hsame => ?_, fun h => ?_⟩, ?_⟩, readsBack_of_parse hv⟩
  · by_contra h
    have hkey := same_iff_key_eq.mp hsame
    rw [key_eq, key_eq, Key.mk.injEq] at hkey
    exact hnot h hkey.2.symm
  · rw [same_iff_key_eq, key_eq, key_eq, hrelease, hback h]
  · rw [normalize_eq_iff hrelease]
    refine ⟨fun heq => ?_, hback⟩
    by_contra h
    exact hnot h (by rw [heq])

/-- A prerelease with dots, dashes and leading zeros is kept, and so is a plus sign at either end of
one without dots. -/
theorem exists_parse_normalize_kept :
    (∃ v w, parse "1.x.3.0-rc.01" = .ok v ∧ v.normalize = "1.0.3-0-rc.01" ∧
      parse v.normalize = .ok w ∧ v.same w = true ∧ w.normalize = v.normalize) ∧
    ∃ v w, parse "1-+b" = .ok v ∧ v.normalize = "1.0.0-+b" ∧
      parse v.normalize = .ok w ∧ v.same w = true ∧ w.normalize = v.normalize := by
  refine ⟨?_, ?_⟩
  · obtain ⟨w, hw, -, hsame, hnormalize⟩ := (@exists_parse_normalize "1.x.3.0-rc.01" _ rfl).1
    exact ⟨_, w, rfl, by decide, hw, hsame.mpr (by decide), hnormalize.mpr (by decide)⟩
  · obtain ⟨w, hw, -, hsame, hnormalize⟩ := (@exists_parse_normalize "1-+b" _ rfl).1
    exact ⟨_, w, rfl, by decide, hw, hsame.mpr (by decide), hnormalize.mpr (by decide)⟩

/-- The fourth piece of `1.2.3.4+b` comes to stand before a plus sign, behind which a build is read;
and `+a.b`, behind a dash, is read up to its dot. -/
theorem exists_normalize_changes :
    (∃ v w, parse "1.2.3.4+b" = .ok v ∧ parse v.normalize = .ok w ∧
      v.same w = false ∧ v.normalize = "1.2.3-4+b" ∧ w.normalize = "1.2.3-4") ∧
    ∃ v w, parse "1.x.3.+a.b" = .ok v ∧ parse v.normalize = .ok w ∧
      v.same w = false ∧ v.normalize = "1.0.3-+a.b" ∧ w.normalize = "1.0.3-+a" := by
  refine ⟨⟨_, _, rfl, rfl, ?_⟩, ⟨_, _, rfl, rfl, ?_⟩⟩ <;> decide

end Version

end Versioning
