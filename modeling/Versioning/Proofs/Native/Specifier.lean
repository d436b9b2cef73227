import Versioning.Native.Pep440
import Versioning.Proofs.Text

/-! Clauses of specifier sets.  What a lawful reader makes of a clause is what is cut off behind its
operator; and the grammar of clauses is such a reader.  Of a version it drops one part after the
other and looks at what is left, so that a comma in the version is still there in the end. -/

namespace Versioning

open Text

namespace Specifier

variable {operator : String} {clause text rest : List Char} {c : Char} {s : Specifier}

/-! ### Operators -/

theorem exists_of_split? (h : split? text = some s) : s.operator ∈ operators ∧
    ∃ rest, text = s.operator.toList ++ rest ∧ strip rest = s.version := by
  obtain ⟨operator, hoperator, hs⟩ := List.exists_of_findSome?_eq_some h
  obtain ⟨rest, hrest, rfl⟩ := Option.map_eq_some_iff.mp hs
  exact ⟨hoperator, rest, dropStart?_eq_some_iff.mp hrest, rfl⟩

theorem not_isBlank_of_mem_operators (h : operator ∈ operators) :
    operator.toList.any isBlank = false ∧ ',' ∉ operator.toList := by
  have hall : ∀ operator ∈ operators,
      operator.toList.any isBlank = false ∧ ',' ∉ operator.toList := by decide +kernel
  exact hall operator h

/-- The operators that may stand for a series. -/
def seriesOperators : List String := ["~=", "==", "!="]

theorem mem_operators_of_mem_seriesOperators (h : operator ∈ seriesOperators) :
    operator ∈ operators := by
  have hall : ∀ operator ∈ seriesOperators, operator ∈ operators := by decide +kernel
  exact hall operator h

theorem split?_append (h : operator ∈ seriesOperators) (hrest : rest.head? ≠ some '=') :
    split? (operator.toList ++ rest) = some ⟨operator, strip rest⟩ := by
  have hnone := dropStart?_singleton_eq_none hrest
  obtain rfl | rfl | rfl : operator = "~=" ∨ operator = "==" ∨ operator = "!=" := by
    simpa [seriesOperators] using h
  all_goals simp [split?, operators, dropStart?, hnone]

namespace Reader.IsLawful

variable [Reader] (h : Reader.IsLawful)

include h

theorem operator_mem (hs : s ∈ ofClause? clause) : s.operator ∈ operators :=
  (exists_of_split? (h.split clause s hs)).1

/-- A clause of an operator for series and a text without blanks shows these two. -/
theorem ofClause?_append (hoperator : operator ∈ seriesOperators) (hc : c ≠ '=')
    (hblank : (c :: rest).any isBlank = false)
    (haccepts : (ofClause? (operator.toList ++ c :: rest)).isSome = true) :
    ofClause? (operator.toList ++ c :: rest) = some ⟨operator, c :: rest⟩ := by
  obtain ⟨s, hs⟩ := Option.isSome_iff_exists.mp haccepts
  have hoperators := mem_operators_of_mem_seriesOperators hoperator
  have hwhole : (operator.toList ++ c :: rest).any isBlank = false := by
    rw [List.any_append, (not_isBlank_of_mem_operators hoperators).1, hblank, Bool.or_self]
  have hsplit := h.split _ s hs
  rw [strip_eq_self hwhole, split?_append hoperator (by simpa using hc), strip_eq_self hblank]
    at hsplit
  rw [hs, hsplit]

end Reader.IsLawful

end Specifier

namespace Pep440

open Specifier

variable {operator : String} {text rest : List Char} {c : Char}

/-! ### Commas -/

/-- The function drops no comma. -/
def KeepsCommas (drop : List Char → List Char) : Prop := ∀ text, ',' ∈ text → ',' ∈ drop text

theorem KeepsCommas.comp {f g : List Char → List Char} (hf : KeepsCommas f) (hg : KeepsCommas g) :
    KeepsCommas fun text => f (g text) := fun text h => hf _ (hg text h)

theorem mem_dropWhile {p : Char → Bool} (hc : c ∈ text) (hp : p c = false) :
    c ∈ text.dropWhile p := by
  rw [← List.takeWhile_append_dropWhile (p := p) (l := text), List.mem_append] at hc
  refine hc.resolve_left fun htake => ?_
  rw [List.mem_takeWhile_imp htake] at hp
  contradiction

theorem keepsCommas_dropDigits : KeepsCommas (List.dropWhile Char.isDigit) :=
  fun _ h => mem_dropWhile h (by decide)

theorem keepsCommas_dropSeparator : KeepsCommas dropSeparator := by
  intro text h
  cases text with
  | nil => contradiction
  | cons c rest =>
    rw [dropSeparator]
    split
    next hc =>
      refine (List.mem_cons.mp h).resolve_left ?_
      rintro rfl
      contradiction
    next => exact h

theorem keepsCommas_dropMark : KeepsCommas dropMark := by
  intro text h
  unfold dropMark
  split
  next rest => exact (List.mem_cons.mp h).resolve_left (by decide)
  next => exact h

theorem keepsCommas_dropEpoch : KeepsCommas dropEpoch := by
  intro text h
  have hdigits := keepsCommas_dropDigits text h
  unfold dropEpoch
  split
  next rest heq =>
    rw [heq] at hdigits
    split
    next => exact (List.mem_cons.mp hdigits).resolve_left (by decide)
    next => exact h
  next => exact h

theorem keepsCommas_dropNumbers : KeepsCommas dropNumbers := by
  intro text h
  fun_induction dropNumbers text with
  | case1 => contradiction
  | case2 c rest hc ih =>
    refine ih ((List.mem_cons.mp h).resolve_left ?_)
    rintro rfl
    simp at hc
  | case3 => exact h

theorem keepsCommas_dropTag {tags : List String} (htags : ∀ tag ∈ tags, ',' ∉ tag.toList) :
    KeepsCommas (dropTag tags) := by
  intro text h
  unfold dropTag
  split
  next rest heq =>
    obtain ⟨tag, htag, hrest⟩ := List.exists_of_findSome?_eq_some heq
    rw [dropStart?_eq_some_iff] at hrest
    have hdropped := keepsCommas_dropSeparator text h
    rw [hrest] at hdropped
    have hafter := (List.mem_append.mp hdropped).resolve_left (htags tag htag)
    exact keepsCommas_dropDigits.comp keepsCommas_dropSeparator rest hafter
  next => exact h

theorem keepsCommas_dropPostrelease : KeepsCommas dropPostrelease := by
  have htag : KeepsCommas (dropTag ["post", "rev", "r"]) := keepsCommas_dropTag (by decide +kernel)
  intro text h
  unfold dropPostrelease
  split
  next digit rest =>
    split
    next hd =>
      refine keepsCommas_dropDigits rest ?_
      have hrest := (List.mem_cons.mp h).resolve_left (by decide)
      refine (List.mem_cons.mp hrest).resolve_left ?_
      rintro rfl
      contradiction
    next => exact htag _ h
  next => exact htag _ h

theorem keepsCommas_dropTags : KeepsCommas dropTags :=
  (keepsCommas_dropTag (by decide +kernel)).comp
    (keepsCommas_dropPostrelease.comp (keepsCommas_dropTag (by decide +kernel)))

theorem comma_not_mem_of_isLocal (h : isLocal text = true) : ',' ∉ text := by
  unfold isLocal at h
  split at h
  next rest =>
    intro hc
    have hrest := (List.mem_cons.mp hc).resolve_left (by decide)
    obtain ⟨piece, hpiece, hcomma⟩ := exists_mem_splitOnP hrest (p := isSeparator) (by decide)
    have hall := (Bool.and_eq_true_iff.mp (List.all_eq_true.mp h piece hpiece)).2
    have halphanum := List.all_eq_true.mp hall ',' hcomma
    contradiction
  next => contradiction

/-- What is left in the end has the commas of the text, and no operator allows one there. -/
theorem comma_not_mem_of_fits (h : fits operator text = true) (hne : operator ≠ "===") :
    ',' ∉ text := by
  intro hc
  have hlower : ',' ∈ text.map lower := List.mem_map.mpr ⟨',', hc, by decide⟩
  have hnumbers := keepsCommas_dropEpoch.comp keepsCommas_dropMark _ hlower
  have htail := keepsCommas_dropNumbers _ hnumbers
  have hrest := keepsCommas_dropTags _ htail
  have hempty : (dropTags (dropNumbers (dropEpoch (dropMark (text.map lower))))).isEmpty =
      false := by simpa using List.ne_nil_of_mem hrest
  have hwildcard : dropNumbers (dropEpoch (dropMark (text.map lower))) ≠ ['.', '*'] := by
    intro heq
    rw [heq] at htail
    contradiction
  have hlocal := mt comma_not_mem_of_isLocal (not_not.mpr hrest)
  rw [fits, if_neg (by simpa using hne)] at h
  have hversion := (Bool.and_eq_true_iff.mp h).2
  split at hversion
  · simp [hempty] at hversion
  · simp [hempty, hwildcard, hlocal] at hversion
  · simp [hempty, hwildcard, hlocal] at hversion
  · simp [hempty] at hversion

/-! ### The laws -/

theorem mem_ofClause?_iff {clause : List Char} {s : Specifier} : s ∈ Reader.ofClause? clause ↔
    split? (strip clause) = some s ∧ fits s.operator s.version = true :=
  Option.filter_eq_some_iff

theorem split?_identity (rest : List Char) :
    split? ('=' :: '=' :: '=' :: rest) = some ⟨"===", strip rest⟩ := by
  simp [split?, operators, dropStart?]

/-- Behind an equality stands what may stand behind its negation, if it is not the start of an
identity. -/
theorem isSome_ofClause?_negation {s : Specifier} (hs : s ∈ Reader.ofClause? ('=' :: '=' :: text))
    (hoperator : s.operator = "==") :
    (Reader.ofClause? ('!' :: '=' :: text)).isSome = true := by
  obtain ⟨hsplit, hfits⟩ := mem_ofClause?_iff.mp hs
  have hequal : strip ('=' :: '=' :: text) = '=' :: '=' :: stripRight text :=
    strip_append (List.cons_ne_nil '=' ['=']) (by decide +kernel) text
  have hnotEqual : strip ('!' :: '=' :: text) = '!' :: '=' :: stripRight text :=
    strip_append (List.cons_ne_nil '!' ['=']) (by decide +kernel) text
  rw [hequal] at hsplit
  have hrest : (stripRight text).head? ≠ some '=' := by
    intro hhead
    obtain ⟨rest, hrest⟩ := List.head?_eq_some_iff.mp hhead
    rw [hrest, split?_identity, Option.some.injEq] at hsplit
    rw [← hsplit] at hoperator
    exact absurd (show "===" = "==" from hoperator) (by decide)
  obtain rfl : ⟨"==", strip (stripRight text)⟩ = s :=
    Option.some.inj ((split?_append (by decide) hrest).symm.trans hsplit)
  have hcut : split? ("!=".toList ++ stripRight text) = some ⟨"!=", strip (stripRight text)⟩ :=
    split?_append (by decide) hrest
  have hmem : ⟨"!=", strip (stripRight text)⟩ ∈ Reader.ofClause? ('!' :: '=' :: text) :=
    mem_ofClause?_iff.mpr ⟨hnotEqual ▸ hcut, hfits⟩
  exact Option.isSome_of_mem hmem

theorem isLawful : Reader.IsLawful where
  split _ _ hs := (mem_ofClause?_iff.mp hs).1
  comma clause s hs hne hc := by
    obtain ⟨hsplit, hfits⟩ := mem_ofClause?_iff.mp hs
    obtain ⟨hoperator, rest, hrest, hversion⟩ := exists_of_split? hsplit
    have hcomma : isBlank ',' = false := by decide +kernel
    rw [← mem_strip_iff hcomma, hrest, List.mem_append] at hc
    have hmem := hc.resolve_left (not_isBlank_of_mem_operators hoperator).2
    rw [← mem_strip_iff hcomma, hversion] at hmem
    exact comma_not_mem_of_fits hfits hne hmem
  negation _ _ := isSome_ofClause?_negation

-- Where case is ignored, a long s is an s.
example : (Reader.ofClause? "== 1.0poſt1".toList).isSome = true := by decide +kernel

end Pep440

end Versioning
