import Versioning.Native
import Versioning.Proofs.Lookup
import Versioning.Proofs.Range.Union

/-! Texts that name several alternatives: sets of comparators between double bars, and groups in
brackets between commas.  Such a text is accepted if each alternative is on its own, and its range
is the union of theirs, taken one after the other.  So it holds nothing that none of them holds; but
where a ray of one meets an interval of another that has versions on other sides, it may lack what
they hold. -/

namespace Versioning

/-- The range of the alternatives that are read from the given things. -/
def Range.readAlternatives {α : Type} (read : α → Lookup Range) : List α → Lookup Range
  | [x] => read x
  | xs => xs.foldlM (fun range x => range.union <$> read x) .empty

theorem Range.run_readAlternatives_eq_ok_iff {α : Type} {read : α → Lookup Range} {xs : List α}
    {r : Range} : (readAlternatives read xs).run = .ok r ↔
      ∃ rs, List.Forall₂ (fun x s => (read x).run = .ok s) xs rs ∧ ofAlternatives rs = r := by
  unfold readAlternatives
  split
  next x =>
    constructor
    · exact fun h => ⟨[r], .cons h .nil, rfl⟩
    · rintro ⟨_, _ | ⟨h, _ | _⟩, rfl⟩
      exact h
  next xs hxs =>
    rw [Lookup.run_foldlM_eq_ok_iff]
    refine exists_congr fun rs => and_congr_right fun hrs => ?_
    have hne (s : Range) : rs ≠ [s] := by
      rintro rfl
      obtain ⟨x, hx⟩ := List.length_eq_one_iff.mp hrs.length_eq
      exact hxs x hx
    rw [ofAlternatives.eq_2 rs hne]

/-! ### Sets between double bars -/

namespace Npm

open Text

theorem map_strip_splitOnPair_cons {c x : Char} {text : List Char} (hx : x ≠ c)
    (hb : isBlank x = true) :
    (splitOnPair c (x :: text)).map strip = (splitOnPair c text).map strip := by
  rw [splitOnPair_cons hx]
  cases splitOnPair c text with
  | nil => rfl
  | cons piece pieces => simp [strip_cons hb]

/-- Blanks around a text do not change its trimmed pieces. -/
theorem map_strip_splitOnPair_strip {c : Char} (hc : isBlank c = false) (text : List Char) :
    (splitOnPair c (strip text)).map strip = (splitOnPair c text).map strip := by
  refine apply_strip (f := fun text => (splitOnPair c text).map strip) (fun x text hx => ?_)
    (fun x text hx => ?_) text
  · exact map_strip_splitOnPair_cons (ne_of_isBlank hx hc) hx
  · obtain ⟨pieces, last, hp, hl⟩ := exists_splitOnPair_concat (ne_of_isBlank hx hc) text
    simp [hp, hl, strip_concat hx]

theorem parse_eq (text : String) : parse text =
    Range.readAlternatives comparatorSet ((splitOnPair '|' text.toList).map strip) := by
  have hjoin := intercalate_splitOnPair '|' (strip text.toList)
  rw [← map_strip_splitOnPair_strip (by decide), parse]
  cases h : splitOnPair '|' (strip text.toList) with
  | nil => exact absurd h (splitOnPair_ne_nil _ _)
  | cons set sets =>
    cases sets with
    | nil =>
      have hset : set = strip text.toList := by simpa [h] using hjoin
      rw [hset, List.map_singleton, strip_strip, Range.readAlternatives]
    | cons set' sets => simp [Range.readAlternatives, List.foldlM_map]

/-- Sets with no double bar in them come apart again at the double bars between them. -/
theorem map_strip_splitOnPair_intercalate {sets : List String} (hne : sets ≠ [])
    (h : ∀ s ∈ sets, ¬['|', '|'] <:+: s.toList) :
    (splitOnPair '|' (" || ".intercalate sets).toList).map strip =
      sets.map fun s => strip s.toList := by
  induction sets with
  | nil => contradiction
  | cons s sets ih =>
    obtain ⟨hs, hsets⟩ := List.forall_mem_cons.mp h
    cases sets with
    | nil => simp [splitOnPair_eq_singleton hs]
    | cons s' sets =>
      have hjoin : (" || ".intercalate (s :: s' :: sets)).toList =
          s.toList ++ ' ' :: '|' :: '|' :: ' ' :: (" || ".intercalate (s' :: sets)).toList := by
        rw [String.intercalate_cons_cons, String.toList_append, String.toList_append]
        simp
      rw [hjoin, splitOnPair_append (by decide) hs, List.map_cons, strip_concat (by decide),
        map_strip_splitOnPair_cons (by decide) (by decide), ih (by simp) hsets]
      rfl

/-- A text of sets between double bars has the range of the alternatives that these are on their
own. -/
theorem run_parse_intercalate {sets : List String} {rs : List Range} (hne : sets ≠ [])
    (h : ∀ s ∈ sets, ¬['|', '|'] <:+: s.toList)
    (hrs : List.Forall₂ (fun s r => (parse s).run = .ok r) sets rs) :
    (parse (" || ".intercalate sets)).run = .ok (Range.ofAlternatives rs) := by
  rw [parse_eq, map_strip_splitOnPair_intercalate hne h, Range.run_readAlternatives_eq_ok_iff]
  refine ⟨rs, List.forall₂_map_left_iff.mpr ?_, rfl⟩
  have hsets := (List.forall₂_and_left sets rs).mpr ⟨h, hrs⟩
  refine hsets.imp fun s r ⟨hs, hr⟩ => ?_
  rwa [parse_eq, splitOnPair_eq_singleton hs] at hr

end Npm

/-! ### Groups between commas -/

namespace Bracket

open Text

/-- Whether the character opens or closes a group. -/
def isBracket (c : Char) : Bool := c == '[' || c == '(' || c == ']' || c == ')'

/-- The text is one group, perhaps with blanks around it. -/
def Group.IsShown (g : Group) (text : List Char) : Prop :=
  strip text = g.text.toList ∧ g.inner.any isBracket = false

instance (g : Group) (text : List Char) : Decidable (g.IsShown text) :=
  inferInstanceAs (Decidable (_ ∧ _))

/-- The text reads as the given groups, whatever a fault would say about it. -/
def Reads (text : List Char) (gs : List Group) : Prop :=
  ∀ whole offset, Group.readFrom whole .before offset text = .ok gs

variable {text rest : List Char} {gs gs' : List Group} {g : Group} {place : Place}
  {whole : String} {offset : Nat}

/-- What follows a text that is read to its end is read after a group. -/
theorem readFrom_append (h : Group.readFrom whole place offset text = .ok gs) (rest : List Char)
    (whole' : String) (offset' : Nat) : Group.readFrom whole' place offset' (text ++ rest) =
      (Group.readFrom whole' .after (offset' + text.length) rest).map (gs ++ ·) := by
  -- Only where a closing bracket is read does a group join those that were read before.
  fun_induction Group.readFrom whole place offset text generalizing gs offset' with
  | case1 => contradiction
  | case2 => contradiction
  | case3 offset =>
    cases h
    rw [List.nil_append]
    cases Group.readFrom whole' .after (offset' + [].length) rest <;> rfl
  | case4 offset c text hc ih =>
    simp [Group.readFrom, hc, ih h, ← Nat.add_assoc, Nat.add_right_comm _ 1]
  | case5 offset c text hc hopen ih =>
    simp [Group.readFrom, hc, hopen, ih h, ← Nat.add_assoc, Nat.add_right_comm _ 1]
  | case6 => contradiction
  | case7 lowerInclusive read offset c text hclose ih =>
    cases hr : Group.readFrom whole .after (offset + 1) text with
    | error fault =>
      rw [hr] at h
      contradiction
    | ok gs' =>
      rw [hr] at h
      cases h
      simp only [List.cons_append, Group.readFrom, hclose, if_true, ih hr, List.length_cons,
        ← Nat.add_assoc, Nat.add_right_comm _ 1]
      cases Group.readFrom whole' .after (offset' + text.length + 1) rest <;> rfl
  | case8 => contradiction
  | case9 lowerInclusive read offset c text hclose hopen ih =>
    simp [Group.readFrom, hclose, hopen, ih h, ← Nat.add_assoc, Nat.add_right_comm _ 1]
  | case10 offset c text hc ih =>
    simp [Group.readFrom, hc, ih h, ← Nat.add_assoc, Nat.add_right_comm _ 1]
  | case11 offset c text hc hcomma ih =>
    simp [Group.readFrom, hc, hcomma, ih h, ← Nat.add_assoc, Nat.add_right_comm _ 1]
  | case12 => contradiction

theorem reads_of_readFrom (h : Group.readFrom whole .before offset text = .ok gs) :
    Reads text gs := fun whole' offset' => by
  simpa [Group.readFrom, Except.map] using readFrom_append h [] whole' offset'

theorem isBracket_eq_false_of_isBlank {c : Char} (hc : isBlank c = true) :
    isBracket c = false := by
  refine Bool.eq_false_of_not_eq_true fun h => ?_
  simp only [isBracket, Bool.or_eq_true, beq_iff_eq] at h
  obtain ((rfl | rfl) | rfl) | rfl := h <;> exact absurd hc (by decide)

/-- A blank at the end of a text changes nothing, not even a fault. -/
theorem readFrom_concat {c : Char} (hc : isBlank c = true) :
    Group.readFrom whole place offset (text ++ [c]) = Group.readFrom whole place offset text := by
  have hb := isBracket_eq_false_of_isBlank hc
  simp only [isBracket, Bool.or_eq_false_iff] at hb
  fun_induction Group.readFrom whole place offset text <;> simp_all [Group.readFrom]

theorem reads_strip_iff : Reads (strip text) gs ↔ Reads text gs := by
  refine iff_of_eq
    (apply_strip (f := (Reads · gs)) (fun c text hc => ?_) (fun c text hc => ?_) text)
  · refine propext ⟨fun h => ?_, fun h whole offset => ?_⟩
    · have hread : Group.readFrom "" .before 1 text = .ok gs := by
        simpa [Group.readFrom, hc] using h "" 0
      exact reads_of_readFrom hread
    · simpa [Group.readFrom, hc] using h whole (offset + 1)
  · simp only [Reads, readFrom_concat hc]

theorem readFrom_inside {inner : List Char} (h : inner.any isBracket = false)
    (whole : String) (offset : Nat) (lowerInclusive upperInclusive : Bool) (read : List Char) :
    Group.readFrom whole (.inside lowerInclusive read) offset
      (inner ++ [if upperInclusive then ']' else ')']) =
        .ok [⟨lowerInclusive, read.reverse ++ inner, upperInclusive⟩] := by
  induction inner generalizing read offset with
  | nil => cases upperInclusive <;> simp [Group.readFrom, Except.map]
  | cons c inner ih =>
    obtain ⟨hc, hinner⟩ := Bool.or_eq_false_iff.mp (List.any_cons ▸ h)
    simp only [isBracket, Bool.or_eq_false_iff] at hc
    simp [Group.readFrom, hc, ih hinner]

theorem Group.IsShown.reads (h : g.IsShown text) : Reads text [g] := by
  obtain ⟨htext, hinner⟩ := h
  rw [← reads_strip_iff, htext]
  intro whole offset
  obtain ⟨lowerInclusive, inner, upperInclusive⟩ := g
  have hinside := readFrom_inside hinner whole (offset + 1) lowerInclusive upperInclusive []
  have hsquare : isBlank '[' = false := by decide
  have hround : isBlank '(' = false := by decide
  cases lowerInclusive with
  | true => simpa [Group.text, Group.readFrom, hsquare] using hinside
  | false => simpa [Group.text, Group.readFrom, hround] using hinside

/-- Texts of groups come one after the other with a comma between them. -/
theorem reads_append (h : Reads text gs) (h' : Reads rest gs') :
    Reads (text ++ ',' :: rest) (gs ++ gs') := by
  intro whole offset
  have hcomma : isBlank ',' = false := by decide
  rw [readFrom_append (h whole offset), Group.readFrom]
  simp [hcomma, h' whole _, Except.map]

theorem reads_intercalate {texts : List String}
    (h : List.Forall₂ (fun t g => Reads t.toList [g]) texts gs) (hne : texts ≠ []) :
    Reads (",".intercalate texts).toList gs := by
  induction h with
  | nil => contradiction
  | @cons t g texts gs ht hts ih =>
    cases hts with
    | nil => simpa using ht
    | cons ht' hts' =>
      rw [String.intercalate_cons_cons, String.toList_append, String.toList_append,
        List.append_assoc]
      exact reads_append ht (ih (by simp))

theorem parse_eq_of_reads {ecosystem : String} {other : List Char → Lookup Range} {text : String}
    (h : Reads text.toList gs) :
    parse ecosystem other text = Range.readAlternatives (Group.range ecosystem) gs := by
  rw [← reads_strip_iff] at h
  have hstart := h "" 0
  have hall : Group.all (strip text.toList) = .ok gs := h _ _
  rw [parse]
  cases hs : strip text.toList with
  | nil =>
    rw [hs] at hstart
    contradiction
  | cons first rest =>
    have hblank := isBlank_eq_false_of_strip_eq_cons hs
    rw [hs] at hall
    have hopen : (first == '[' || first == '(') = true := by
      rw [hs, Group.readFrom, if_neg (by simp [hblank])] at hstart
      by_contra hopen
      rw [if_neg hopen] at hstart
      contradiction
    simp only [hopen, if_true, hall]
    rcases gs with _ | ⟨g, _ | ⟨g', gs⟩⟩ <;> rfl

/-- The text is one group in brackets. -/
def IsGroup (text : String) : Prop := ∃ g : Group, g.IsShown text.toList

/-- A text of groups between commas has the range of the alternatives that these are on their
own. -/
theorem run_parse_intercalate {ecosystem : String} {other : List Char → Lookup Range}
    {texts : List String} {rs : List Range} (hne : texts ≠ []) (h : ∀ t ∈ texts, IsGroup t)
    (hrs : List.Forall₂ (fun t r => (parse ecosystem other t).run = .ok r) texts rs) :
    (parse ecosystem other (",".intercalate texts)).run = .ok (Range.ofAlternatives rs) := by
  have hboth := (List.forall₂_and_left texts rs).mpr ⟨h, hrs⟩
  have hgroups : List.Forall₂ (fun t r => ∃ g, Reads t.toList [g] ∧
      (Group.range ecosystem g).run = .ok r) texts rs := by
    refine hboth.imp fun t r ⟨⟨g, hg⟩, hr⟩ => ⟨g, hg.reads, ?_⟩
    rwa [parse_eq_of_reads hg.reads] at hr
  obtain ⟨gs, hgs, hranges⟩ := exists_between_of_forall₂ hgroups
  rw [parse_eq_of_reads (reads_intercalate hgs hne), Range.run_readAlternatives_eq_ok_iff]
  exact ⟨rs, hranges, rfl⟩

end Bracket

/-! ### Alternatives by the name of the ecosystem -/

namespace Range

section Grammars

variable [Specifier.Reader]

theorem run_parseNative_eq_ok_iff {text scheme : String} {r : Range} :
    (parseNative text scheme).run = .ok r ↔ (grammarOf scheme text).run = .ok r := by
  rw [parseNative, Lookup.run_mapError]
  cases (grammarOf scheme text).run <;> simp [Except.mapError]

theorem grammarOf_npm : grammarOf "npm" = Npm.parse := by
  have hname : Scheme.ofName? "npm" = some .npm := by decide +kernel
  rw [grammarOf, hname]
  rfl

theorem grammarOf_maven : grammarOf "maven" = Bracket.parse "maven" ofConstraintList := by
  have hname : Scheme.ofName? "maven" = some .maven := by decide +kernel
  rw [grammarOf, hname]
  rfl

theorem grammarOf_nuget : grammarOf "nuget" =
    Bracket.parse "nuget" fun text => .fail (.bracket "nuget" (.form (String.ofList text))) := by
  have hname : Scheme.ofName? "nuget" = some .nuget := by decide +kernel
  rw [grammarOf, hname]
  rfl

theorem exists_grammarOf_eq_bracket {scheme : String} (h : scheme ∈ ["maven", "nuget"]) :
    ∃ ecosystem other, grammarOf scheme = Bracket.parse ecosystem other := by
  obtain rfl | rfl : scheme = "maven" ∨ scheme = "nuget" := by simpa using h
  · exact ⟨_, _, grammarOf_maven⟩
  · exact ⟨_, _, grammarOf_nuget⟩

/-- Alternatives that are accepted on their own are accepted together: sets between double bars, and
groups between commas.  The range of the whole holds nothing that none of them holds, and all that
they hold if intervals of theirs that meet have versions on the same sides. -/
theorem exists_parseNative_unites {texts : List String} {rs : List Range} (hne : texts ≠ [])
    (ho : ∀ r ∈ rs, r.IsOrdered) :
    ((∀ t ∈ texts, ¬['|', '|'] <:+: t.toList) →
      List.Forall₂ (fun t r => (parseNative t "npm").run = .ok r) texts rs →
        ∃ r, (parseNative (" || ".intercalate texts) "npm").run = .ok r ∧ r.Unites rs) ∧
    (∀ scheme ∈ ["maven", "nuget"], (∀ t ∈ texts, Bracket.IsGroup t) →
      List.Forall₂ (fun t r => (parseNative t scheme).run = .ok r) texts rs →
        ∃ r, (parseNative (",".intercalate texts) scheme).run = .ok r ∧ r.Unites rs) := by
  simp only [run_parseNative_eq_ok_iff]
  constructor
  · intro h hrs
    rw [grammarOf_npm] at hrs ⊢
    exact ⟨_, Npm.run_parse_intercalate hne h hrs, unites_ofAlternatives ho⟩
  · intro scheme hscheme h hrs
    obtain ⟨ecosystem, other, hgrammar⟩ := exists_grammarOf_eq_bracket hscheme
    rw [hgrammar] at hrs ⊢
    exact ⟨_, Bracket.run_parse_intercalate hne h hrs, unites_ofAlternatives ho⟩

end Grammars

/-- A caret range that overlaps a bounded one, and a ray apart from both, lose nothing; nor do
groups that are adjacent, with blanks around them. -/
theorem exists_parseNative_unites_adjacent :
    let v (major : Int) : Version := .ofComponents { major }
    let sets := ["^1 ", "1.5 - 3", " >=4"]
    let groups := ["[1,2)", " [2]", "(2,3] "]
    (v 2).IsOrdered ∧
      (∃ r, (parseNative (" || ".intercalate sets) "npm").run = .ok r ∧ r.contains (v 2) = true) ∧
      ∃ r, (parseNative (",".intercalate groups) "maven").run = .ok r ∧
        r.contains (v 2) = true := by
  intro v sets groups
  have hv : (v 2).IsOrdered := by decide +kernel
  refine ⟨hv, ?_, ?_⟩
  · let middle : Version := .ofComponents { major := 1, minor := some 5 }
    let ranges := [upTo (v 1) (.ofRelease ⟨2, 0, 0⟩),
      ofInterval ⟨{ version := middle }, { version := v 3 }⟩, above (v 4) true]
    have hranges : List.Forall₂ (fun t r => (parseNative t "npm").run = .ok r) sets ranges :=
      .cons (by decide +kernel) (.cons (by decide +kernel) (.cons (by decide +kernel) .nil))
    have ho : ∀ r ∈ ranges, r.IsOrdered := by decide +kernel
    obtain ⟨r, hr, hunites⟩ :=
      (exists_parseNative_unites (by decide) ho).1 (by decide +kernel) hranges
    exact ⟨r, hr, (hunites (v 2) hv).2 (by decide +kernel) (by decide +kernel)⟩
  · let ranges := [upTo (v 1) (v 2), exact (v 2), ofInterval ⟨⟨v 2, false⟩, ⟨v 3, true⟩⟩]
    have hranges : List.Forall₂ (fun t r => (parseNative t "maven").run = .ok r) groups ranges :=
      .cons (by decide +kernel) (.cons (by decide +kernel) (.cons (by decide +kernel) .nil))
    have ho : ∀ r ∈ ranges, r.IsOrdered := by decide +kernel
    have hshown : ∀ t ∈ groups, ∃ g ∈ [⟨true, ['1', ',', '2'], false⟩, ⟨true, ['2'], true⟩,
        ⟨false, ['2', ',', '3'], true⟩], Bracket.Group.IsShown g t.toList := by decide +kernel
    have hgroups : ∀ t ∈ groups, Bracket.IsGroup t := by
      intro t ht
      obtain ⟨g, _, hg⟩ := hshown t ht
      exact ⟨g, hg⟩
    obtain ⟨r, hr, hunites⟩ :=
      (exists_parseNative_unites (by decide) ho).2 "maven" (.head _) hgroups hranges
    exact ⟨r, hr, (hunites (v 2) hv).2 (by decide +kernel) (by decide +kernel)⟩

/-- A set or group that is added may take away a version that another one holds: `1` and `*`
together no longer hold 2, nor do `(,2]` and `[1,)` hold 3. -/
theorem exists_alternative_lost :
    let two := Version.ofComponents { major := 2 }
    let three := Version.ofComponents { major := 3 }
    let holds (text scheme : String) (v : Version) : Option Bool :=
      ((parseNative text scheme).run.map (·.contains v)).toOption
    (holds "1" "npm" two = some false ∧ holds "*" "npm" two = some true ∧
        holds "1 || *" "npm" two = some false) ∧
      ∀ scheme ∈ ["maven", "nuget"], holds "(,2]" scheme three = some false ∧
        holds "[1,)" scheme three = some true ∧ holds "(,2],[1,)" scheme three = some false := by
  decide +kernel

end Range

end Versioning
