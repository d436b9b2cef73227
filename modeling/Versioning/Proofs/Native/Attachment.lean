import Versioning.Proofs.Native.Comparators
import Versioning.Proofs.Native.Outcome

/-! Operators that stand apart from their operands.  An operator in front of an operand belongs to
it, with blanks between the two or without: the words are put together before any of them is read,
so that both texts make the same comparators.  An operator that no operand follows belongs to
nothing, and the text is refused. -/

namespace Versioning

/-! ### Words with blanks between them -/

namespace Text

variable {c : Char} {text : List Char} {ws : List (List Char)}

/-- The text is made of the words in order, with one or more blanks between each and the next, and
perhaps with blanks around them all. -/
inductive AreSpaced : List (List Char) → List Char → Prop
  | nil : AreSpaced [] []
  | last {word : List Char} : AreSpaced [word] word
  | blank {c : Char} {ws : List (List Char)} {rest : List Char} (hc : isBlank c = true)
      (hrest : AreSpaced ws rest) : AreSpaced ws (c :: rest)
  | cons {c : Char} {word : List Char} {ws : List (List Char)} {rest : List Char}
      (hc : isBlank c = true) (hrest : AreSpaced ws rest) :
      AreSpaced (word :: ws) (word ++ c :: rest)

theorem AreSpaced.words_eq (h : AreSpaced ws text) (hws : ∀ word ∈ ws, words word = [word]) :
    words text = ws := by
  induction h with
  | nil => rfl
  | last => exact hws _ (.head _)
  | blank hc _ ih => rw [words_cons hc, ih hws]
  | cons hc _ ih =>
    obtain ⟨hword, hrest⟩ := List.forall_mem_cons.mp hws
    rw [words_append_cons hc, hword, ih hrest, List.singleton_append]

/-- Two equal characters in a row that are no blanks lie within one of the words. -/
theorem AreSpaced.not_pair_infix (h : AreSpaced ws text) (hc : isBlank c = false)
    (hws : ∀ word ∈ ws, ¬[c, c] <:+: word) : ¬[c, c] <:+: text := by
  induction h with
  | nil => simp
  | last => exact hws _ (.head _)
  | blank hx _ ih => exact not_pair_infix_cons (ne_of_isBlank hx hc) (ih hws)
  | cons hx _ ih =>
    obtain ⟨hword, hrest⟩ := List.forall_mem_cons.mp hws
    exact not_pair_infix_append_cons (ne_of_isBlank hx hc) hword (ih hrest)

end Text

namespace Npm

open Text

variable {op word a b : List Char} {tail ws : List (List Char)} {pending : Option (List Char)}
  {set text : String} {r : Range}

/-! ### Operators -/

theorem isOperator_dash : isOperator ['-'] = false := by decide +kernel

theorem nonempty_of_isOperator (hop : isOperator op = true) : op ≠ [] :=
  of_isOperator (P := (· ≠ [])) (by decide +kernel) hop

theorem not_isBlank_of_isOperator (hop : isOperator op = true) : op.any isBlank = false :=
  of_isOperator (P := (·.any isBlank = false)) (by decide +kernel) hop

theorem bar_not_mem_of_isOperator (hop : isOperator op = true) : '|' ∉ op :=
  of_isOperator (P := ('|' ∉ ·)) (by decide +kernel) hop

/-- What makes a longer operator of an operator is an operator itself. -/
theorem isOperator_of_append (hop : isOperator op = true) (hne : word ≠ [])
    (h : isOperator (op ++ word) = true) : isOperator word = true := by
  have hall : ∀ symbol ∈ operators, ∀ longer ∈ operators,
      (dropStart? symbol.toList longer.toList).all (fun word => word.isEmpty || isOperator word) =
        true := by
    decide +kernel
  obtain ⟨symbol, hsymbol, rfl⟩ := exists_of_isOperator hop
  obtain ⟨longer, hlonger, heq⟩ := exists_of_isOperator h
  have hword := hall symbol hsymbol longer hlonger
  rw [dropStart?_eq_some_iff.mpr heq] at hword
  simpa [hne] using hword

theorem run_version_ne_of_isOperator (hop : isOperator op = true) (v : Version) :
    (version op).run ≠ .ok v := by
  have hfails := of_isOperator
    (P := fun op => (Version.parse (String.ofList (dropMark op))).isOk = false)
    (by decide +kernel) hop
  intro hv
  rw [version, Lookup.run_version] at hv
  rw [hv] at hfails
  contradiction

/-! ### Comparators -/

/-- An operand, which is one word and neither an operator nor a dash, and the operator in front of
it, if there is one. -/
structure Comparator where
  operator : Option (List Char)
  operand : List Char
  isOperator_operator : ∀ op ∈ operator, isOperator op = true
  nonempty : operand ≠ []
  blank : operand.any isBlank = false
  not_isOperator : isOperator operand = false
  ne_dash : operand ≠ ['-']

namespace Comparator

/-- The operator and the operand as two words. -/
def apart (c : Comparator) : List (List Char) := c.operator.toList ++ [c.operand]

/-- The operator and the operand as one word. -/
def joined (c : Comparator) : List Char := c.operator.getD [] ++ c.operand

theorem forall_mem_apart {P : List Char → Prop} {cs : List Comparator}
    (hop : ∀ op, isOperator op = true → P op) (h : ∀ c ∈ cs, P c.operand) :
    ∀ word ∈ cs.flatMap apart, P word := by
  intro word hword
  obtain ⟨c, hc, hword⟩ := List.mem_flatMap.mp hword
  rcases List.mem_append.mp hword with hword | hword
  · exact hop word (c.isOperator_operator word (Option.mem_toList.mp hword))
  · exact List.mem_singleton.mp hword ▸ h c hc

variable (c : Comparator)

theorem joined_cases :
    c.joined = c.operand ∨ ∃ op, isOperator op = true ∧ c.joined = op ++ c.operand := by
  cases hop : c.operator with
  | none => exact .inl (by rw [joined, hop, Option.getD_none, List.nil_append])
  | some op => exact .inr ⟨op, c.isOperator_operator op hop, by rw [joined, hop, Option.getD_some]⟩

theorem words_joined : words c.joined = [c.joined] := by
  rcases c.joined_cases with hjoined | ⟨op, hop, hjoined⟩ <;> rw [hjoined]
  · exact words_of_not_isBlank c.nonempty c.blank
  · refine words_of_not_isBlank (List.append_ne_nil_of_right_ne_nil op c.nonempty) ?_
    rw [List.any_append, not_isBlank_of_isOperator hop, c.blank, Bool.or_self]

theorem not_isOperator_joined : isOperator c.joined = false := by
  rcases c.joined_cases with hjoined | ⟨op, hop, hjoined⟩ <;> rw [hjoined]
  · exact c.not_isOperator
  · refine Bool.eq_false_of_not_eq_true fun h => ?_
    have hoperand := isOperator_of_append hop c.nonempty h
    rw [c.not_isOperator] at hoperand
    contradiction

theorem joined_ne_dash : c.joined ≠ ['-'] := by
  rcases c.joined_cases with hjoined | ⟨op, hop, hjoined⟩ <;> rw [hjoined]
  · exact c.ne_dash
  · intro h
    rcases List.append_eq_singleton_iff.mp h with ⟨hnil, -⟩ | ⟨-, hnil⟩
    · exact nonempty_of_isOperator hop hnil
    · exact c.nonempty hnil

theorem bar_joined (hbar : ¬['|', '|'] <:+: c.operand) : ¬['|', '|'] <:+: c.joined := by
  rcases c.joined_cases with hjoined | ⟨op, hop, hjoined⟩ <;> rw [hjoined]
  · exact hbar
  · exact not_pair_infix_append (bar_not_mem_of_isOperator hop) hbar

/-- Behind a comparator no operator is left over: its words become one, and the rest follows. -/
theorem attachOperators_apart_append (set : String) (tail : List (List Char)) :
    attachOperators set none (c.apart ++ tail) =
      (attachOperators set none tail).map (c.joined :: ·) := by
  obtain ⟨_ | op, operand, hop, -, -, hnot, -⟩ := c
  · show attachOperators set none (operand :: tail) = _
    rw [attachOperators, if_neg (by simp [hnot])]
    rfl
  · show attachOperators set none (op :: operand :: tail) = _
    rw [attachOperators, if_pos (hop op rfl), if_neg (by simp), attachOperators,
      if_neg (by simp [hnot])]
    rfl

end Comparator

variable {cs : List Comparator}

theorem attachOperators_apart (set : String) (cs : List Comparator) :
    attachOperators set none (cs.flatMap Comparator.apart) = .ok (cs.map Comparator.joined) := by
  induction cs with
  | nil => rfl
  | cons c cs ih =>
    rw [List.flatMap_cons, c.attachOperators_apart_append, ih]
    rfl

theorem words_spaced (h : AreSpaced (cs.flatMap Comparator.apart) text.toList) :
    words text.toList = cs.flatMap Comparator.apart := by
  refine h.words_eq (Comparator.forall_mem_apart (fun op hop => ?_) fun c _ => ?_)
  · exact words_of_not_isBlank (nonempty_of_isOperator hop) (not_isBlank_of_isOperator hop)
  · exact words_of_not_isBlank c.nonempty c.blank

theorem words_joined (h : AreSpaced (cs.map Comparator.joined) text.toList) :
    words text.toList = cs.map Comparator.joined :=
  h.words_eq (List.forall_mem_map.mpr fun c _ => c.words_joined)

theorem parse_eq_conjunction_of_attach (hbar : ¬['|', '|'] <:+: text.toList)
    (hdash : ['-'] ∉ words text.toList)
    (h : ∀ set, attachOperators set none (words text.toList) = .ok ws) :
    parse text = conjunction ws := by
  rw [parse_eq_comparatorSet hbar, comparatorSet]
  simp only [words_strip, List.contains_iff_mem, hdash, if_false, h]
  rfl

theorem parse_spaced (h : AreSpaced (cs.flatMap Comparator.apart) text.toList)
    (hbar : ∀ c ∈ cs, ¬['|', '|'] <:+: c.operand) :
    parse text = conjunction (cs.map Comparator.joined) := by
  refine parse_eq_conjunction_of_attach ?_ ?_ fun set => ?_
  · refine h.not_pair_infix (by decide) (Comparator.forall_mem_apart ?_ hbar)
    exact fun op hop hpair => bar_not_mem_of_isOperator hop (hpair.subset (.head _))
  · rw [words_spaced h]
    intro hdash
    refine Comparator.forall_mem_apart (P := (· ≠ ['-'])) ?_ (fun c _ => c.ne_dash) _ hdash rfl
    rintro _ hop rfl
    rw [isOperator_dash] at hop
    contradiction
  · rw [words_spaced h, attachOperators_apart]

theorem parse_joined (h : AreSpaced (cs.map Comparator.joined) text.toList)
    (hbar : ∀ c ∈ cs, ¬['|', '|'] <:+: c.operand) :
    parse text = conjunction (cs.map Comparator.joined) := by
  refine parse_eq_conjunction_of_attach ?_ ?_ fun set => ?_
  · apply h.not_pair_infix (by decide)
    exact List.forall_mem_map.mpr fun c hc => c.bar_joined (hbar c hc)
  · rw [words_joined h, List.mem_map]
    rintro ⟨c, -, hdash⟩
    exact c.joined_ne_dash hdash
  · rw [words_joined h]
    exact attachOperators_of_attached (List.forall_mem_map.mpr fun c _ => c.not_isOperator_joined)

/-! ### Operators without an operand -/

/-- The last word is an operator. -/
def EndsInOperator (tokens : List (List Char)) : Prop :=
  ∃ op ∈ tokens.getLast?, isOperator op = true

/-- One operator comes right after another. -/
def HasOperatorsInRow (tokens : List (List Char)) : Prop :=
  ∃ a b, [a, b] <:+: tokens ∧ isOperator a = true ∧ isOperator b = true

theorem hasOperatorsInRow_cons_cons : HasOperatorsInRow (a :: b :: tail) ↔
    isOperator a = true ∧ isOperator b = true ∨ HasOperatorsInRow (b :: tail) := by
  constructor
  · rintro ⟨x, y, hinfix, hx, hy⟩
    rcases List.infix_cons_iff.mp hinfix with hstart | hlater
    · obtain ⟨rfl, hnext⟩ := List.cons_prefix_cons.mp hstart
      obtain ⟨rfl, -⟩ := List.cons_prefix_cons.mp hnext
      exact .inl ⟨hx, hy⟩
    · exact .inr ⟨x, y, hlater, hx, hy⟩
  · rintro (⟨ha, hb⟩ | ⟨x, y, hinfix, hx, hy⟩)
    · exact ⟨a, b, ⟨[], tail, rfl⟩, ha, hb⟩
    · exact ⟨x, y, List.infix_cons hinfix, hx, hy⟩

theorem not_hasOperatorsInRow_of_length (h : ws.length ≤ 1) : ¬HasOperatorsInRow ws := by
  rintro ⟨x, y, hinfix, -, -⟩
  have hlength := hinfix.length_le
  simp at hlength
  omega

/-- A word that is no operator ends what came before it. -/
theorem hasOperatorsInRow_append_cons (hword : isOperator word = false) :
    HasOperatorsInRow (pending.toList ++ word :: tail) ↔ HasOperatorsInRow tail := by
  have hcons : HasOperatorsInRow (word :: tail) ↔ HasOperatorsInRow tail := by
    cases tail with
    | nil =>
      apply iff_of_false <;> exact not_hasOperatorsInRow_of_length (by simp)
    | cons next tail => simp [hasOperatorsInRow_cons_cons, hword]
  cases pending with
  | none => exact hcons
  | some op =>
    show HasOperatorsInRow (op :: word :: tail) ↔ _
    rw [hasOperatorsInRow_cons_cons, hcons]
    simp [hword]

theorem endsInOperator_append_cons (hword : isOperator word = false) :
    EndsInOperator (ws ++ word :: tail) ↔ EndsInOperator tail := by
  cases tail with
  | nil => simp [EndsInOperator, hword]
  | cons next tail => simp [EndsInOperator]

/-- The words that are left decide the outcome, with the operator in front of them that still waits
for its operand. -/
theorem attachOperators_cases (set : String) (pending : Option (List Char))
    (tail : List (List Char)) (hpending : ∀ op ∈ pending, isOperator op = true) :
    HasOperatorsInRow (pending.toList ++ tail) ∧
      attachOperators set pending tail = .error (.npm (.operators set)) ∨
    ¬HasOperatorsInRow (pending.toList ++ tail) ∧ EndsInOperator (pending.toList ++ tail) ∧
      attachOperators set pending tail = .error (.npm (.danglingOperator set)) ∨
    ¬HasOperatorsInRow (pending.toList ++ tail) ∧ ¬EndsInOperator (pending.toList ++ tail) ∧
      ∃ ws, attachOperators set pending tail = .ok ws := by
  induction tail generalizing pending with
  | nil =>
    have hrow : ¬HasOperatorsInRow (pending.toList ++ []) :=
      not_hasOperatorsInRow_of_length (by cases pending <;> simp)
    cases pending with
    | none => exact .inr (.inr ⟨hrow, by simp [EndsInOperator], [], rfl⟩)
    | some op => exact .inr (.inl ⟨hrow, ⟨op, rfl, hpending op rfl⟩, rfl⟩)
  | cons word tail ih =>
    by_cases hword : isOperator word = true
    · cases pending with
      | none =>
        rw [attachOperators, if_pos hword, if_neg (by simp)]
        -- The word now waits instead of being left: together the words are still the same.
        exact ih (some word) fun op hop => Option.some.inj hop ▸ hword
      | some op =>
        refine .inl ⟨hasOperatorsInRow_cons_cons.mpr (.inl ⟨hpending op rfl, hword⟩), ?_⟩
        rw [attachOperators, if_pos hword, if_pos (by simp)]
    · rw [Bool.not_eq_true] at hword
      rw [hasOperatorsInRow_append_cons hword, endsInOperator_append_cons hword, attachOperators,
        if_neg (by simp [hword])]
      rcases ih none (by simp) with
        ⟨hrow, heq⟩ | ⟨hrow, hends, heq⟩ | ⟨hrow, hends, ws, heq⟩ <;> rw [heq]
      · exact .inl ⟨hrow, rfl⟩
      · exact .inr (.inl ⟨hrow, hends, rfl⟩)
      · exact .inr (.inr ⟨hrow, hends, _, rfl⟩)

theorem exists_of_run_hyphenRange (h : (hyphenRange set ws).run = .ok r) :
    ∃ lower upper v, ws = [lower, ['-'], upper] ∧ (version upper).run = .ok v := by
  unfold hyphenRange at h
  split at h
  next lower upper =>
    obtain ⟨min, -, h⟩ := Lookup.run_bind_eq_ok_iff.mp h
    obtain ⟨max, hmax, -⟩ := Lookup.run_bind_eq_ok_iff.mp h
    exact ⟨lower, upper, max, rfl, hmax⟩
  next => cases h

/-- A dash between two words leaves no place for an operator, which shows no version. -/
theorem run_hyphenRange_ne (h : HasOperatorsInRow ws ∨ EndsInOperator ws) (r : Range) :
    (hyphenRange set ws).run ≠ .ok r := by
  intro hr
  obtain ⟨lower, upper, v, rfl, hv⟩ := exists_of_run_hyphenRange hr
  rcases h with hrow | hends
  · rw [hasOperatorsInRow_cons_cons, hasOperatorsInRow_cons_cons, isOperator_dash] at hrow
    rcases hrow with ⟨-, hdash⟩ | ⟨hdash, -⟩ | hrow
    · contradiction
    · contradiction
    · exact not_hasOperatorsInRow_of_length (by simp) hrow
  · obtain ⟨op, hlast, hop⟩ := hends
    obtain rfl : upper = op := by simpa using hlast
    exact run_version_ne_of_isOperator hop v hv

theorem run_comparatorSet_ne {text : List Char}
    (h : HasOperatorsInRow (words text) ∨ EndsInOperator (words text)) (r : Range) :
    (comparatorSet text).run ≠ .ok r := by
  intro hr
  rw [comparatorSet] at hr
  split at hr
  next => exact run_hyphenRange_ne h r hr
  next =>
    obtain ⟨comparators, hattach, -⟩ := Lookup.run_bind_eq_ok_iff.mp hr
    rw [Lookup.run_ofExcept] at hattach
    rcases attachOperators_cases (String.ofList text) none (words text) (by simp)
      with ⟨-, heq⟩ | ⟨-, -, heq⟩ | ⟨hrow, hends, -⟩
    · rw [hattach] at heq
      contradiction
    · rw [hattach] at heq
      contradiction
    · exact h.elim hrow hends

end Npm

/-! ### Native ranges -/

namespace Range

open Text

/-- Operators that stand apart are put in front of their operands, however many comparators there
are and whatever the blanks; and the text is read just if the one without these blanks is, as the
same range.  Words are refused just if they end in an operator or have two operators in a row, and
no text is read that has such words between its double bars. -/
theorem run_parseNative_spaced_iff [Specifier.Reader] {cs : List Npm.Comparator}
    {spaced joined : String}
    (hspaced : AreSpaced (cs.flatMap Npm.Comparator.apart) spaced.toList)
    (hjoined : AreSpaced (cs.map Npm.Comparator.joined) joined.toList) :
    (∀ set, Npm.attachOperators set none (words spaced.toList) =
      .ok (cs.map Npm.Comparator.joined)) ∧
    ((∀ c ∈ cs, ¬['|', '|'] <:+: c.operand) → ∀ r,
      (parseNative spaced "npm").run = .ok r ↔ (parseNative joined "npm").run = .ok r) ∧
    (∀ set tokens, (∃ e, Npm.attachOperators set none tokens = .error e) ↔
      Npm.HasOperatorsInRow tokens ∨ Npm.EndsInOperator tokens) ∧
    ∀ text : String, ∀ set ∈ splitOnPair '|' text.toList,
      Npm.HasOperatorsInRow (words set) ∨ Npm.EndsInOperator (words set) →
        ∃ e, (parseNative text "npm").run = .error e ∧ e.kind = .range := by
  refine ⟨fun set => ?attached, fun hbar r => ?same, fun set tokens => ?refused,
    fun text set hset hloose => ?unread⟩
  case attached =>
    rw [Npm.words_spaced hspaced, Npm.attachOperators_apart]
  case same =>
    rw [run_parseNative_eq_ok_iff, run_parseNative_eq_ok_iff, grammarOf_npm,
      Npm.parse_spaced hspaced hbar, Npm.parse_joined hjoined hbar]
  case refused =>
    rcases Npm.attachOperators_cases set none tokens (by simp) with
      ⟨hrow, heq⟩ | ⟨-, hends, heq⟩ | ⟨hrow, hends, ws, heq⟩
    · exact iff_of_true ⟨_, heq⟩ (.inl hrow)
    · exact iff_of_true ⟨_, heq⟩ (.inr hends)
    · refine iff_of_false ?_ (not_or.mpr ⟨hrow, hends⟩)
      rintro ⟨e, he⟩
      rw [heq] at he
      contradiction
  case unread =>
    refine (run_parseNative_cases text "npm").resolve_left ?_
    rintro ⟨r, hr⟩
    rw [run_parseNative_eq_ok_iff, grammarOf_npm, Npm.parse_eq] at hr
    obtain ⟨rs, hrs, -⟩ := run_readAlternatives_eq_ok_iff.mp hr
    obtain ⟨s, -, hs⟩ := exists_left_of_forall₂ hrs.flip (List.mem_map_of_mem hset)
    refine Npm.run_comparatorSet_ne ?_ s hs
    rw [words_strip]
    exact hloose

/-- An operator with two blanks behind it, one with none, and one in front of a bare number; and an
alternative that ends in an operator. -/
theorem run_parseNative_spaced_iff_mixed :
    let v (minor : Int) : Version := .ofComponents { major := 1, minor := some minor }
    let spaced := " >= \t1.2 !=1.5  ~> 1"
    let joined := ">=1.2 !=1.5 ~>1"
    AreSpaced ([">=", "1.2", "!=1.5", "~>", "1"].map String.toList) spaced.toList ∧
      AreSpaced ([">=1.2", "!=1.5", "~>1"].map String.toList) joined.toList ∧
      (∃ r, (parseNative spaced "npm").run = .ok r ∧ r.contains (v 3) = true ∧
        r.contains (v 5) = false) ∧
      ∃ e, (parseNative "1 || 2 <" "npm").run = .error e ∧ e.kind = .range := by
  intro v spaced joined
  have hspaced : AreSpaced ([">=", "1.2", "!=1.5", "~>", "1"].map String.toList)
      spaced.toList := by
    have hchars : spaced.toList = ' ' :: (">=".toList ++ ' ' :: '\t' :: ("1.2".toList ++
        ' ' :: ("!=1.5".toList ++ ' ' :: ' ' :: ("~>".toList ++ ' ' :: "1".toList)))) := by
      decide +kernel
    rw [hchars]
    refine .blank (by decide) (.cons (by decide) (.blank (by decide) ?_))
    exact .cons (by decide) (.cons (by decide) (.blank (by decide) (.cons (by decide) .last)))
  have hjoined : AreSpaced ([">=1.2", "!=1.5", "~>1"].map String.toList) joined.toList := by
    have hchars : joined.toList =
        ">=1.2".toList ++ ' ' :: ("!=1.5".toList ++ ' ' :: "~>1".toList) := by
      decide +kernel
    rw [hchars]
    exact .cons (by decide) (.cons (by decide) .last)
  let cs : List Npm.Comparator := [
    ⟨some ">=".toList, "1.2".toList, by decide +kernel, by decide, by decide, by decide, by decide⟩,
    ⟨none, "!=1.5".toList, nofun, by decide, by decide, by decide, by decide⟩,
    ⟨some "~>".toList, "1".toList, by decide +kernel, by decide, by decide, by decide, by decide⟩]
  have hr : (parseNative joined "npm").run =
      .ok ⟨[⟨{ version := some ⟨{ major := 1, minor := some 2 }, "1.2"⟩ }, ⟨v 5, false⟩⟩,
        ⟨⟨v 5, false⟩, ⟨some (.ofRelease ⟨2, 0, 0⟩), false⟩⟩]⟩ := by
    decide +kernel
  obtain ⟨-, hsame, -, hunread⟩ := run_parseNative_spaced_iff
    (show AreSpaced (cs.flatMap Npm.Comparator.apart) spaced.toList from hspaced)
    (show AreSpaced (cs.map Npm.Comparator.joined) joined.toList from hjoined)
  refine ⟨hspaced, hjoined, ⟨_, (hsame (by decide +kernel) _).mpr hr, ?_, ?_⟩, ?_⟩
  · decide +kernel
  · decide +kernel
  · exact hunread "1 || 2 <" " 2 <".toList (by decide +kernel)
      (.inr ⟨['<'], by decide +kernel, by decide +kernel⟩)

end Range

end Versioning
