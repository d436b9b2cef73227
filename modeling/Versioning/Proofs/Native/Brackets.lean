import Versioning.Proofs.Native.Outcome
import Versioning.Proofs.Version.Grammar

/-! The language of bracket notation.  A text is a lone version, or it is groups with one comma and
any blanks between each and the next; and every group denotes an interval.  Any other text is
refused. -/

namespace Versioning.Bracket

open Text

/-! ### Lone versions -/

/-- The text is numbers with dots between them, and perhaps a dash and a qualifier. -/
def IsPlainVersion (text : List Char) : Prop :=
  ∃ (numbers : List (List Char)) (qualifier : Option (List Char)),
    text = ['.'].intercalate numbers ++ marked '-' qualifier ∧
    numbers ≠ [] ∧ (∀ digits ∈ numbers, isNumeric digits = true) ∧
    ∀ tag ∈ qualifier, tag ≠ [] ∧ ∀ c ∈ tag, c.isAlphanum = true ∨ c = '.' ∨ c = '-'

section Plain

variable {text : List Char} {numbers : List (List Char)}

theorem dash_not_mem_intercalate (h : ∀ digits ∈ numbers, isNumeric digits = true) :
    '-' ∉ ['.'].intercalate numbers := fun hdash => by
  have hne : ∀ c ∈ ['.'].intercalate numbers, c ≠ '-' :=
    forall_mem_intercalate (by decide) fun digits hdigits c hc => by
      rintro rfl
      exact not_mem_of_isNumeric (h digits hdigits) rfl hc
  exact hne '-' hdash rfl

theorem splitOn_intercalate (hne : numbers ≠ [])
    (h : ∀ digits ∈ numbers, isNumeric digits = true) :
    (['.'].intercalate numbers).splitOn '.' = numbers :=
  List.splitOn_intercalate '.' (fun digits hdigits => not_mem_of_isNumeric (h digits hdigits) rfl)
    hne

theorem isPlainVersion_iff : isPlainVersion text = true ↔ IsPlainVersion text := by
  constructor
  · intro h
    by_cases hdash : '-' ∈ text
    · obtain ⟨release, tag, rfl, hrelease⟩ := List.eq_append_cons_of_mem hdash
      rw [isPlainVersion, cutAt_append hrelease] at h
      simp only [Bool.and_eq_true, List.all_eq_true, Bool.not_eq_true', List.isEmpty_eq_false_iff,
        Bool.or_eq_true, beq_iff_eq, or_assoc] at h
      refine ⟨release.splitOn '.', some tag, ?_, List.splitOn_ne_nil _ _, h.1, ?_⟩
      · rw [List.intercalate_splitOn]
        rfl
      · exact fun _ htag => Option.some.inj htag ▸ h.2
    · rw [isPlainVersion, cutAt_of_not_mem hdash] at h
      refine ⟨text.splitOn '.', none, ?_, List.splitOn_ne_nil _ _, by simpa using h, by simp⟩
      rw [List.intercalate_splitOn]
      exact (List.append_nil text).symm
  · rintro ⟨numbers, qualifier, rfl, hne, hnumbers, htag⟩
    have hdash := dash_not_mem_intercalate hnumbers
    have hall : numbers.all isNumeric = true := List.all_eq_true.mpr hnumbers
    cases qualifier with
    | none =>
      rw [marked, List.append_nil, isPlainVersion, cutAt_of_not_mem hdash]
      simp [splitOn_intercalate hne hnumbers, hall]
    | some tag =>
      obtain ⟨htag, hchars⟩ := htag tag rfl
      rw [marked, isPlainVersion, cutAt_append hdash]
      simpa [splitOn_intercalate hne hnumbers, hall, htag, or_assoc] using hchars

instance (text : List Char) : Decidable (IsPlainVersion text) :=
  decidable_of_iff _ isPlainVersion_iff

example : IsPlainVersion "01.2-rc.-1".toList ∧ ¬IsPlainVersion "1.2+b".toList := by decide

theorem IsPlainVersion.head?_isDigit (h : IsPlainVersion text) :
    text.head?.any Char.isDigit = true := by
  obtain ⟨numbers, qualifier, rfl, hne, hnumbers, -⟩ := h
  obtain ⟨major, more, rfl⟩ := List.exists_cons_of_ne_nil hne
  obtain ⟨after, hafter⟩ := prefix_intercalate_cons '.' major more
  rw [← hafter, List.append_assoc]
  exact head?_append_any (head?_isDigit_of_isNumeric (hnumbers major (.head more))) _

theorem IsPlainVersion.not_isBlank (h : IsPlainVersion text) : ∀ c ∈ text, isBlank c = false := by
  obtain ⟨numbers, qualifier, rfl, -, hnumbers, htag⟩ := h
  have hdots : ∀ c ∈ ['.'].intercalate numbers, isBlank c = false :=
    forall_mem_intercalate (by decide) fun digits hdigits c hc =>
      isBlank_eq_false_of_isDigit (isDigit_of_isNumeric (hnumbers digits hdigits) c hc)
  refine List.forall_mem_append.mpr ⟨hdots, ?_⟩
  cases qualifier with
  | none => exact List.forall_mem_nil _
  | some tag =>
    refine List.forall_mem_cons.mpr ⟨by decide, fun c hc => ?_⟩
    obtain hc | rfl | rfl := (htag tag rfl).2 c hc
    · exact isBlank_eq_false_of_isAlphanum hc
    · decide
    · decide

/-- A lone version is a version: one number has the shape of one, and any other text has a dot or a
dash. -/
theorem IsPlainVersion.exists_parse (h : IsPlainVersion text) :
    ∃ v, Version.parse (String.ofList text) = .ok v := by
  rw [Version.exists_parse_iff, Version.IsVersionText, String.toList_ofList]
  refine ⟨h.not_isBlank, ?_⟩
  have hhead := h.head?_isDigit
  obtain ⟨numbers, qualifier, rfl, hne, hnumbers, -⟩ := h
  obtain ⟨major, more, rfl⟩ := List.exists_cons_of_ne_nil hne
  cases qualifier with
  | some tag => exact .inr ⟨hhead, .inr (by simp [marked])⟩
  | none =>
    cases more with
    | cons minor more => exact .inr ⟨hhead, .inl (by simp [List.intercalate])⟩
    | nil =>
      refine .inl ⟨{ major, isNumber_major := isNumber_of_isNumeric (hnumbers major (.head _))
                     isNumber_minor := by simp, isNumber_patch := by simp
                     patch_eq_none := fun _ => rfl, isPrerelease := by simp
                     isBuild := by simp }, ?_⟩
      simp [Shape.text, Shape.numbers, Shape.tail, marked, List.intercalate]

end Plain

/-! ### Lists of groups -/

/-- Groups with one comma, and perhaps blanks, between each and the next. -/
inductive Group.AreShown : List Group → List Char → Prop
  | last {g : Group} (hinner : g.inner.any isBracket = false) : AreShown [g] g.text.toList
  | cons {g : Group} {gs : List Group} {before after rest : List Char}
      (hinner : g.inner.any isBracket = false) (hbefore : strip before = [])
      (hafter : strip after = []) (hrest : AreShown gs rest) :
      AreShown (g :: gs) (g.text.toList ++ before ++ ',' :: (after ++ rest))

section Groups

variable {text : List Char} {gs : List Group} {whole : String} {offset : Nat}

theorem Group.toList_text (g : Group) : g.text.toList =
    (if g.lowerInclusive then '[' else '(') ::
      (g.inner ++ [if g.upperInclusive then ']' else ')']) :=
  String.toList_ofList

theorem isBlank_eq_false_of_isBracket {c : Char} (hc : isBracket c = true) : isBlank c = false :=
  Bool.eq_false_of_not_eq_true fun h => by
    rw [isBracket_eq_false_of_isBlank h] at hc
    contradiction

/-- Groups start with an opening bracket and end with a bracket. -/
theorem Group.AreShown.exists_ends (h : AreShown gs text) :
    ∃ (lowerInclusive : Bool) (front : List Char) (last : Char), isBracket last = true ∧
      text = (if lowerInclusive then '[' else '(') :: (front ++ [last]) := by
  have hclose (inclusive : Bool) : isBracket (if inclusive then ']' else ')') = true := by
    cases inclusive <;> rfl
  induction h with
  | @last g hinner => exact ⟨_, g.inner, _, hclose g.upperInclusive, g.toList_text⟩
  | @cons g gs before after rest hinner hbefore hafter hrest ih =>
    obtain ⟨lowerInclusive, front, last, hlast, rfl⟩ := ih
    refine ⟨g.lowerInclusive, g.inner ++ (if g.upperInclusive then ']' else ')') :: (before ++
      ',' :: (after ++ (if lowerInclusive then '[' else '(') :: front)), last, hlast, ?_⟩
    simp [g.toList_text]

theorem Group.AreShown.strip_eq (h : AreShown gs text) : strip text = text := by
  obtain ⟨lowerInclusive, front, last, hlast, rfl⟩ := h.exists_ends
  refine strip_cons_append ?_ (List.cons_ne_nil _ _) ?_
  · cases lowerInclusive <;> decide
  · simp [isBlank_eq_false_of_isBracket hlast]

/-! ### What a reader of groups takes -/

theorem exists_of_readFrom_before (h : Group.readFrom whole .before offset text = .ok gs) :
    ∃ (before : List Char) (lowerInclusive : Bool) (rest : List Char) (offset' : Nat),
      text = before ++ (if lowerInclusive then '[' else '(') :: rest ∧ strip before = [] ∧
      Group.readFrom whole (.inside lowerInclusive []) offset' rest = .ok gs := by
  induction text generalizing offset with
  | nil => contradiction
  | cons c text ih =>
    rw [Group.readFrom] at h
    split at h
    next hc =>
      obtain ⟨before, lowerInclusive, rest, offset', rfl, hbefore, hrest⟩ := ih h
      exact ⟨c :: before, lowerInclusive, rest, offset', rfl, by rw [strip_cons hc, hbefore], hrest⟩
    next hc =>
      split at h
      next hopen =>
        refine ⟨[], c == '[', text, offset + 1, ?_, rfl, h⟩
        simp only [Bool.or_eq_true, beq_iff_eq] at hopen
        obtain rfl | rfl := hopen <;> rfl
      next => contradiction

theorem exists_of_readFrom_inside {lowerInclusive : Bool} {read : List Char}
    (h : Group.readFrom whole (.inside lowerInclusive read) offset text = .ok gs) :
    ∃ (inner : List Char) (upperInclusive : Bool) (rest : List Char) (offset' : Nat)
      (gs' : List Group), text = inner ++ (if upperInclusive then ']' else ')') :: rest ∧
      inner.any isBracket = false ∧
      gs = ⟨lowerInclusive, read.reverse ++ inner, upperInclusive⟩ :: gs' ∧
      Group.readFrom whole .after offset' rest = .ok gs' := by
  induction text generalizing offset read with
  | nil => contradiction
  | cons c text ih =>
    rw [Group.readFrom] at h
    split at h
    next hclose =>
      cases hafter : Group.readFrom whole .after (offset + 1) text with
      | error fault =>
        rw [hafter] at h
        contradiction
      | ok gs' =>
        rw [hafter] at h
        cases h
        refine ⟨[], c == ']', text, offset + 1, gs', ?_, rfl, by rw [List.append_nil], hafter⟩
        simp only [Bool.or_eq_true, beq_iff_eq] at hclose
        obtain rfl | rfl := hclose <;> rfl
    next hclose =>
      split at h
      next => contradiction
      next hopen =>
        obtain ⟨inner, upperInclusive, rest, offset', gs', rfl, hinner, rfl, hafter⟩ := ih h
        refine ⟨c :: inner, upperInclusive, rest, offset', gs', rfl, ?_, by simp, hafter⟩
        simp_all [isBracket]

theorem readFrom_after_cases (h : Group.readFrom whole .after offset text = .ok gs) :
    strip text = [] ∧ gs = [] ∨
      ∃ (before rest : List Char) (offset' : Nat), text = before ++ ',' :: rest ∧
        strip before = [] ∧ Group.readFrom whole .before offset' rest = .ok gs := by
  induction text generalizing offset with
  | nil => exact .inl ⟨rfl, (Except.ok.inj h).symm⟩
  | cons c text ih =>
    rw [Group.readFrom] at h
    split at h
    next hc =>
      obtain ⟨htext, hgs⟩ | ⟨before, rest, offset', rfl, hbefore, hrest⟩ := ih h
      · exact .inl ⟨by rw [strip_cons hc, htext], hgs⟩
      · exact .inr ⟨c :: before, rest, offset', rfl, by rw [strip_cons hc, hbefore], hrest⟩
    next =>
      split at h
      next hcomma => exact .inr ⟨[], text, offset + 1, by simp_all, rfl, h⟩
      next => contradiction

/-- What is read as groups shows them, perhaps with blanks around. -/
theorem exists_areShown_of_readFrom (h : Group.readFrom whole .before offset text = .ok gs) :
    ∃ before shown after, text = before ++ (shown ++ after) ∧ strip before = [] ∧
      strip after = [] ∧ Group.AreShown gs shown := by
  -- One group is taken off at a time, and the blanks in front of it.
  induction gs generalizing offset text with
  | nil =>
    obtain ⟨_, _, _, _, -, -, hinside⟩ := exists_of_readFrom_before h
    obtain ⟨_, _, _, _, _, -, -, hnil, -⟩ := exists_of_readFrom_inside hinside
    contradiction
  | cons g gs ih =>
    obtain ⟨before, lowerInclusive, text, _, rfl, hbefore, hinside⟩ := exists_of_readFrom_before h
    obtain ⟨inner, upperInclusive, rest, _, gs', rfl, hinner, hgs, hafter⟩ :=
      exists_of_readFrom_inside hinside
    obtain ⟨rfl, rfl⟩ := List.cons.inj hgs
    obtain ⟨hrest, rfl⟩ | ⟨blanks, rest, _, rfl, hblanks, hnext⟩ := readFrom_after_cases hafter
    · refine ⟨before, _, rest, ?_, hbefore, hrest, .last hinner⟩
      simp [Group.toList_text]
    · obtain ⟨blanks', shown, after, rfl, hblanks', hafter, hshown⟩ := ih hnext
      refine ⟨before, _, after, ?_, hbefore, hafter, .cons hinner hblanks hblanks' hshown⟩
      simp [Group.toList_text]

theorem Group.AreShown.reads (h : AreShown gs text) : Reads text gs := by
  induction h with
  | @last g hinner => exact IsShown.reads ⟨(AreShown.last hinner).strip_eq, hinner⟩
  | @cons g gs before after rest hinner hbefore hafter hrest ih =>
    refine reads_append (IsShown.reads ⟨?_, hinner⟩) (reads_strip_iff.mp ?_)
    · rw [strip_append_of_strip_eq_nil hbefore, (AreShown.last hinner).strip_eq]
    · rwa [strip_append_left hafter, reads_strip_iff]

/-- Just the texts that show groups, with blanks around them or not, are read as groups. -/
theorem reads_iff_areShown : Reads text gs ↔ Group.AreShown gs (strip text) := by
  constructor
  · intro h
    obtain ⟨before, shown, after, rfl, hbefore, hafter, hshown⟩ :=
      exists_areShown_of_readFrom (h "" 0)
    rwa [strip_append_left hbefore, strip_append_of_strip_eq_nil hafter, hshown.strip_eq]
  · exact fun h => reads_strip_iff.mp h.reads

end Groups

/-! ### Groups that denote an interval -/

/-- What a side of a group shows: no version if it is blank, and else the one that can be read. -/
inductive IsSide (side : List Char) : Option Version → Prop
  | blank (h : strip side = []) : IsSide side none
  | version {v : Version} (h : Version.parse (String.ofList (strip side)) = .ok v) :
    IsSide side (some v)

/-- The group is one version between square brackets, or it is two sides around a comma.  Not both
sides are blank, one that is has a round bracket, and between the two there is place for a
version. -/
inductive Group.Denotes : Group → Interval → Prop
  | exact {inner : List Char} {v : Version} (hcomma : ',' ∉ inner)
      (h : Version.parse (String.ofList (strip inner)) = .ok v) :
      Denotes ⟨true, inner, true⟩ (.exact v)
  | bounds {lower upper : List Char} {i : Interval} (hcommaLower : ',' ∉ lower)
      (hcommaUpper : ',' ∉ upper) (hblank : strip lower ≠ [] ∨ strip upper ≠ [])
      (hroundLower : strip lower = [] → i.lower.inclusive = false)
      (hroundUpper : strip upper = [] → i.upper.inclusive = false)
      (hlower : IsSide lower i.lower.version) (hupper : IsSide upper i.upper.version)
      (hplace : i.isEmpty = false) :
      Denotes ⟨i.lower.inclusive, lower ++ ',' :: upper, i.upper.inclusive⟩ i

section Denotes

variable {ecosystem : String} {lowerInclusive upperInclusive : Bool}
  {inner side lower upper : List Char} {r : Range} {bound : Option Version}

theorem parse_empty : Version.parse (String.ofList []) = .error (.version "") := by
  decide +kernel

theorem strip_ne_nil_of_parse {v : Version}
    (h : Version.parse (String.ofList (strip side)) = .ok v) : strip side ≠ [] := fun hnil => by
  rw [hnil, parse_empty] at h
  contradiction

theorem run_version?_eq_ok_iff : (version? (strip side)).run = .ok bound ↔ IsSide side bound := by
  cases hside : strip side with
  | nil =>
    constructor
    · intro h
      cases h
      exact .blank hside
    · intro h
      cases h with
      | blank => rfl
      | version h => exact absurd hside (strip_ne_nil_of_parse h)
  | cons first rest =>
    rw [← hside]
    have hne : (strip side).isEmpty = false := by rw [hside, List.isEmpty_cons]
    rw [version?, hne, if_neg (by simp), Lookup.run_map_eq_ok_iff]
    constructor
    · rintro ⟨v, hv, rfl⟩
      rw [Lookup.run_version] at hv
      exact .version hv
    · intro h
      cases h with
      | blank h =>
        rw [h] at hside
        contradiction
      | version h => exact ⟨_, by rwa [Lookup.run_version], rfl⟩

/-- Without a comma a group is read if it is one version between square brackets. -/
theorem run_range_exact (hcomma : ',' ∉ inner) :
    (Group.range ecosystem ⟨lowerInclusive, inner, upperInclusive⟩).run = .ok r ↔
      lowerInclusive = true ∧ upperInclusive = true ∧
        ∃ v, Version.parse (String.ofList (strip inner)) = .ok v ∧ .exact v = r := by
  unfold Group.range
  simp only [cutAt_of_not_mem hcomma]
  split
  next h =>
    simp only [Bool.and_eq_true] at h
    rw [Lookup.run_map_eq_ok_iff, Lookup.run_version]
    simp [h.1.1, h.1.2]
  next h =>
    refine iff_of_false nofun ?_
    rintro ⟨rfl, rfl, v, hv, -⟩
    exact h (by simp [strip_ne_nil_of_parse hv])

/-- With a comma it is read if it is two sides that leave place for a version. -/
theorem run_range_bounds (hcomma : ',' ∉ lower) :
    (Group.range ecosystem ⟨lowerInclusive, lower ++ ',' :: upper, upperInclusive⟩).run = .ok r ↔
      ',' ∉ upper ∧ (strip lower ≠ [] ∨ strip upper ≠ []) ∧
        (strip lower = [] → lowerInclusive = false) ∧ (strip upper = [] → upperInclusive = false) ∧
        ∃ min max, IsSide lower min ∧ IsSide upper max ∧
          let i : Interval := ⟨⟨min, lowerInclusive⟩, ⟨max, upperInclusive⟩⟩
          i.isEmpty = false ∧ .ofInterval i = r := by
  have hmany : ¬(strip upper).contains ',' = true ↔ ',' ∉ upper := by
    rw [List.contains_iff_mem, mem_strip_iff (by decide)]
  have hblank : ¬((strip lower).isEmpty && (strip upper).isEmpty) = true ↔
      strip lower ≠ [] ∨ strip upper ≠ [] := by
    rw [Bool.and_eq_true, List.isEmpty_iff, List.isEmpty_iff, not_and_or]
  have hround : ¬((strip lower).isEmpty && lowerInclusive ||
        (strip upper).isEmpty && upperInclusive) = true ↔
      (strip lower = [] → lowerInclusive = false) ∧
        (strip upper = [] → upperInclusive = false) := by
    simp
  unfold Group.range
  simp only [cutAt_append hcomma]
  rw [Lookup.run_ite_fail_eq_ok_iff, Lookup.run_ite_fail_eq_ok_iff, Lookup.run_ite_fail_eq_ok_iff,
    Lookup.run_bind_eq_ok_iff]
  simp only [Lookup.run_bind_eq_ok_iff, Lookup.run_ite_fail_eq_ok_iff, run_version?_eq_ok_iff,
    hmany, hblank, hround, and_assoc, exists_and_left, Bool.not_eq_true, Lookup.run_pure,
    Except.ok.injEq]

/-- The range of a group is the interval that it denotes, in any ecosystem. -/
theorem run_range_eq_ok_iff {g : Group} :
    (g.range ecosystem).run = .ok r ↔ ∃ i, g.Denotes i ∧ .ofInterval i = r := by
  constructor
  · intro h
    obtain ⟨lowerInclusive, inner, upperInclusive⟩ := g
    by_cases hcomma : ',' ∈ inner
    · obtain ⟨lower, upper, rfl, hlower⟩ := List.eq_append_cons_of_mem hcomma
      obtain ⟨hupper, hblank, hroundLower, hroundUpper, min, max, hmin, hmax, hplace, hr⟩ :=
        (run_range_bounds hlower).mp h
      exact ⟨⟨⟨min, lowerInclusive⟩, ⟨max, upperInclusive⟩⟩,
        .bounds hlower hupper hblank hroundLower hroundUpper hmin hmax hplace, hr⟩
    · obtain ⟨rfl, rfl, v, hv, hr⟩ := (run_range_exact hcomma).mp h
      exact ⟨.exact v, .exact hcomma hv, hr⟩
  · rintro ⟨i, hdenotes, hr⟩
    cases hdenotes with
    | exact hcomma hv => exact (run_range_exact hcomma).mpr ⟨rfl, rfl, _, hv, hr⟩
    | bounds hlower hupper hblank hroundLower hroundUpper hmin hmax hplace =>
      exact (run_range_bounds hlower).mpr
        ⟨hupper, hblank, hroundLower, hroundUpper, _, _, hmin, hmax, hplace, hr⟩

end Denotes

/-! ### Texts in bracket notation -/

/-- The character opens a group. -/
def IsOpening (c : Char) : Prop := c = '[' ∨ c = '('

/-- The text shows groups, and each of them denotes an interval. -/
def IsBracketText (text : List Char) : Prop :=
  ∃ gs is, Group.AreShown gs text ∧ List.Forall₂ Group.Denotes gs is

section Texts

variable {ecosystem : String} {other : List Char → Lookup Range} {text : String} {r : Range}
  {gs : List Group} {first : Char} {rest : List Char}

/-- Groups are read if each denotes an interval, and then as these intervals. -/
theorem run_parse_of_areShown (h : Group.AreShown gs (strip text.toList)) :
    (parse ecosystem other text).run = .ok r ↔
      ∃ is, List.Forall₂ Group.Denotes gs is ∧ .ofAlternatives (is.map .ofInterval) = r := by
  rw [parse_eq_of_reads (reads_iff_areShown.mpr h), Range.run_readAlternatives_eq_ok_iff]
  simp only [run_range_eq_ok_iff]
  constructor
  · rintro ⟨rs, hrs, hr⟩
    obtain ⟨is, hdenotes, hmap⟩ := exists_between_of_forall₂ hrs
    have hrs : is.map .ofInterval = rs := List.forall₂_eq_eq_eq ▸ List.forall₂_map_left_iff.mpr hmap
    exact ⟨is, hdenotes, hrs ▸ hr⟩
  · rintro ⟨is, hdenotes, hr⟩
    exact ⟨_, List.forall₂_map_right_iff.mpr (hdenotes.imp fun g i hi => ⟨i, hi, rfl⟩), hr⟩

theorem exists_areShown_of_run (htext : strip text.toList = first :: rest)
    (hfirst : IsOpening first) (h : (parse ecosystem other text).run = .ok r) :
    ∃ gs, Group.AreShown gs (strip text.toList) := by
  have hopen : (first == '[' || first == '(') = true := by simpa [IsOpening] using hfirst
  simp only [parse, htext, hopen, if_true] at h
  obtain ⟨gs, hgs, -⟩ := Lookup.run_bind_eq_ok_iff.mp h
  rw [Lookup.run_ofExcept] at hgs
  cases hall : Group.all (first :: rest) with
  | error fault =>
    rw [hall] at hgs
    contradiction
  | ok gs =>
    refine ⟨gs, ?_⟩
    rw [← strip_strip, ← reads_iff_areShown, htext]
    exact reads_of_readFrom hall

/-- Behind an opening bracket just the texts in bracket notation are accepted. -/
theorem exists_run_parse_iff_isBracketText (htext : strip text.toList = first :: rest)
    (hfirst : IsOpening first) :
    (∃ r, (parse ecosystem other text).run = .ok r) ↔ IsBracketText (strip text.toList) := by
  constructor
  · rintro ⟨r, h⟩
    obtain ⟨gs, hgs⟩ := exists_areShown_of_run htext hfirst h
    obtain ⟨is, his, -⟩ := (run_parse_of_areShown hgs).mp h
    exact ⟨gs, is, hgs, his⟩
  · rintro ⟨gs, is, hgs, his⟩
    exact ⟨_, (run_parse_of_areShown hgs).mpr ⟨is, his, rfl⟩⟩

/-- Other texts are accepted if they are a lone version, or else as the ecosystem has it. -/
theorem run_parse_of_not_isOpening (htext : strip text.toList = first :: rest)
    (hfirst : ¬IsOpening first) : parse ecosystem other text =
      if isPlainVersion (strip text.toList) then
        (Range.above · true) <$> Lookup.version (strip text.toList)
      else other (strip text.toList) := by
  have hopen : (first == '[' || first == '(') = false := by simpa [IsOpening] using hfirst
  simp only [parse, htext, hopen, if_neg Bool.false_ne_true]

theorem IsBracketText.exists_isOpening {text : List Char} (h : IsBracketText text) :
    ∃ first rest, text = first :: rest ∧ IsOpening first := by
  obtain ⟨gs, is, hgs, -⟩ := h
  obtain ⟨lowerInclusive, front, last, -, rfl⟩ := hgs.exists_ends
  refine ⟨_, _, rfl, ?_⟩
  cases lowerInclusive
  · exact .inr rfl
  · exact .inl rfl

theorem IsPlainVersion.not_isOpening {rest : List Char} (h : IsPlainVersion (first :: rest)) :
    ¬IsOpening first := by
  have hdigit : first.isDigit = true := h.head?_isDigit
  rintro (rfl | rfl) <;> contradiction

/-- Where nothing else is accepted, these are all: lone versions, and texts in bracket notation. -/
theorem exists_run_parse_iff (hother : ∀ text r, (other text).run ≠ .ok r) :
    (∃ r, (parse ecosystem other text).run = .ok r) ↔
      IsPlainVersion (strip text.toList) ∨ IsBracketText (strip text.toList) := by
  cases htext : strip text.toList with
  | nil =>
    refine iff_of_false ?_ ?_
    · rintro ⟨r, h⟩
      simp [parse, htext] at h
    · rintro (h | h)
      · exact absurd h.head?_isDigit Bool.false_ne_true
      · obtain ⟨_, _, hnil, -⟩ := h.exists_isOpening
        contradiction
  | cons first rest =>
    by_cases hfirst : IsOpening first
    · rw [exists_run_parse_iff_isBracketText htext hfirst, htext,
        or_iff_right fun h => h.not_isOpening hfirst]
    · have hbracket : ¬IsBracketText (first :: rest) := fun h => by
        obtain ⟨_, _, heq, hopening⟩ := h.exists_isOpening
        exact hfirst ((List.cons.inj heq).1 ▸ hopening)
      rw [or_iff_left hbracket, run_parse_of_not_isOpening htext hfirst, htext]
      split
      next hplain =>
        have h := isPlainVersion_iff.mp hplain
        obtain ⟨v, hv⟩ := h.exists_parse
        exact iff_of_true ⟨_, Lookup.run_map_eq_ok_iff.mpr ⟨v, by rwa [Lookup.run_version], rfl⟩⟩ h
      next hplain =>
        refine iff_of_false ?_ (mt isPlainVersion_iff.mpr hplain)
        rintro ⟨r, h⟩
        exact hother _ r h

end Texts

end Versioning.Bracket

namespace Versioning.Range

open Versioning.Bracket

/-- With NuGet a text is read just if it is a lone version or in bracket notation, and any other is
refused with an error about the range, whatever is wrong with it.  With Maven the texts in bracket
notation have the same ranges, and behind an opening bracket nothing else is read. -/
theorem exists_parseNative_brackets_iff [Specifier.Reader] (text : String) :
    ((∃ r, (parseNative text "nuget").run = .ok r) ↔
      IsPlainVersion (Text.strip text.toList) ∨ IsBracketText (Text.strip text.toList)) ∧
    (¬(IsPlainVersion (Text.strip text.toList) ∨ IsBracketText (Text.strip text.toList)) →
      ∃ e, (parseNative text "nuget").run = .error e ∧ e.kind = .range) ∧
    (IsBracketText (Text.strip text.toList) →
      ∃ r, ∀ scheme ∈ ["maven", "nuget"], (parseNative text scheme).run = .ok r) ∧
    ∀ first rest, Text.strip text.toList = first :: rest → IsOpening first →
      ((∃ r, (parseNative text "maven").run = .ok r) ↔ IsBracketText (Text.strip text.toList)) := by
  have hnuget : (∃ r, (parseNative text "nuget").run = .ok r) ↔
      IsPlainVersion (Text.strip text.toList) ∨ IsBracketText (Text.strip text.toList) := by
    simp only [run_parseNative_eq_ok_iff, grammarOf_nuget]
    exact exists_run_parse_iff nofun
  refine ⟨hnuget, fun hnot => ?_, ?_, fun first rest htext hfirst => ?_⟩
  · exact (run_parseNative_cases text "nuget").resolve_left (mt hnuget.mp hnot)
  · rintro ⟨gs, is, hgs, his⟩
    refine ⟨.ofAlternatives (is.map .ofInterval), fun scheme hscheme => ?_⟩
    obtain ⟨ecosystem, other, hgrammar⟩ := exists_grammarOf_eq_bracket hscheme
    rw [run_parseNative_eq_ok_iff, hgrammar]
    exact (run_parse_of_areShown hgs).mpr ⟨is, his, rfl⟩
  · simp only [run_parseNative_eq_ok_iff, grammarOf_maven]
    exact exists_run_parse_iff_isBracketText htext hfirst

/-- Two groups with blanks in and between them, a list that ends in no group, and a group with one
round bracket. -/
theorem exists_parseNative_brackets_iff_groups :
    (∃ r, ∀ scheme ∈ ["maven", "nuget"],
      (parseNative " [1, 2) ,\t(3,)\n" scheme).run = .ok r) ∧
    (∃ e, (parseNative "[1,2),3" "nuget").run = .error e ∧ e.kind = .range) ∧
    ¬IsBracketText (Text.strip "(1]".toList) := by
  refine ⟨(exists_parseNative_brackets_iff _).2.2.1 ?_, ?_, ?_⟩
  · let g : Group := ⟨true, ['1'] ++ ',' :: [' ', '2'], false⟩
    let g' : Group := ⟨false, ['3'] ++ ',' :: [], false⟩
    let v (major : Nat) : Version := .ofComponents { major }
    have htext : Text.strip " [1, 2) ,\t(3,)\n".toList =
        g.text.toList ++ [' '] ++ ',' :: (['\t'] ++ g'.text.toList) := by decide +kernel
    have hshown : Group.AreShown [g, g'] (Text.strip " [1, 2) ,\t(3,)\n".toList) := by
      rw [htext]
      exact .cons (by decide) (by decide) (by decide) (.last (by decide))
    have hg : g.Denotes ⟨{ version := v 1 }, ⟨v 2, false⟩⟩ :=
      @Group.Denotes.bounds ['1'] [' ', '2'] ⟨{ version := v 1 }, ⟨v 2, false⟩⟩ (by decide)
        (by decide) (by decide) (by decide) (by decide)
        (.version (by decide +kernel)) (.version (by decide +kernel)) (by decide +kernel)
    have hg' : g'.Denotes ⟨⟨v 3, false⟩, ⟨none, false⟩⟩ :=
      @Group.Denotes.bounds ['3'] [] ⟨⟨v 3, false⟩, ⟨none, false⟩⟩ (by decide)
        (by decide) (by decide) (by decide) (by decide)
        (.version (by decide +kernel)) (.blank rfl) (by decide +kernel)
    exact ⟨_, _, hshown, .cons hg (.cons hg' .nil)⟩
  · obtain ⟨haccepts, hrefuses, -⟩ := exists_parseNative_brackets_iff "[1,2),3"
    refine hrefuses (mt haccepts.mpr ?_)
    rintro ⟨r, hr⟩
    have hok : (parseNative "[1,2),3" "nuget").run.isOk = false := by decide +kernel
    rw [hr] at hok
    contradiction
  · obtain ⟨-, -, -, hmaven⟩ := exists_parseNative_brackets_iff "(1]"
    refine mt (hmaven '(' ['1', ']'] (by decide +kernel) (.inr rfl)).mpr ?_
    rintro ⟨r, hr⟩
    have hok : (parseNative "(1]" "maven").run.isOk = false := by decide +kernel
    rw [hr] at hok
    contradiction

end Versioning.Range
