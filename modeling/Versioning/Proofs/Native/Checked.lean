import Versioning.Native
import Versioning.Proofs.Script

/-! The grammars of ecosystems as scripts, in which each element of a list is looked up by its
index, each number is read from a text, and operators, numbers of a version and grammars are found
by their names.  A script that realizes its grammar never misses what it looks up. -/

namespace Versioning.Checked

open Text Script

/-! ### Lists of constraints -/

def resolve (c : Constraint) : Script (Operator × Version) := do
  return (c.operator, ← version c.version.toList)

def buildRange (constraints : List Constraint) : Script Range := do
  return Range.ofConstraints (← constraints.mapM resolve)

theorem realizes_buildRange (constraints : List Constraint) :
    (buildRange constraints).Realizes (Range.build constraints) :=
  .bind (.mapM constraints fun c => .bind (.version _) fun v => .pure (c.operator, v))
    fun cs => .pure (Range.ofConstraints cs)

def rangeOfPieces (pieces : List (List Char)) : Script Range := do
  buildRange (← pieces.mapM fun piece => ofExcept (Constraint.parsePiece piece))

theorem realizes_rangeOfPieces (pieces : List (List Char)) :
    (rangeOfPieces pieces).Realizes (Range.ofPieces pieces) := by
  rw [Range.ofPieces, Lookup.ofExcept_mapM]
  exact .bind (.mapM pieces fun piece => .ofExcept _) realizes_buildRange

def rangeOfList (text : List Char) : Script Range := rangeOfPieces (text.splitOn '|')

theorem realizes_rangeOfList (text : List Char) :
    (rangeOfList text).Realizes (Range.ofConstraintList text) :=
  realizes_rangeOfPieces _

/-! ### Complements -/

/-- What lies before, between and after the intervals, of which the first and the last are looked
up. -/
def compl (r : Range) : Option Range :=
  if r.isEmpty then some .unbounded
  else if r.isUnbounded then some .empty
  else do
    let first ← r.intervals[0]?
    let last ← r.intervals.getLast?
    let between := r.intervals.zipWith Interval.between? r.intervals.tail
    return .ofOptional (first.before? :: between ++ [last.after?])

theorem gapsAfter_eq {intervals : List Interval} {last : Interval}
    (h : intervals.getLast? = some last) : Range.gapsAfter intervals =
      intervals.zipWith Interval.between? intervals.tail ++ [last.after?] := by
  fun_induction Range.gapsAfter intervals with
  | case1 => cases h
  | case2 a =>
    obtain rfl : a = last := Option.some.inj h
    rfl
  | case3 a b rest ih => rw [ih (by simpa using h)]; rfl

theorem compl_eq (r : Range) : compl r = some r.compl := by
  obtain ⟨_ | ⟨first, rest⟩⟩ := r
  · rfl
  · have hlast : (first :: rest).getLast? = some ((first :: rest).getLast (List.cons_ne_nil _ _)) :=
      List.getLast?_eq_some_getLast _
    have hgaps := gapsAfter_eq hlast
    unfold compl
    rw [if_neg (by simp [Range.isEmpty])]
    split
    -- Nothing lies before or after an unbounded interval, whatever flags its bounds have.
    next hu =>
      cases rest with
      | nil =>
        obtain ⟨⟨_ | _, f⟩, ⟨_ | _, g⟩⟩ := first
        · rfl
        all_goals cases hu
      | cons => cases hu
    next =>
      have hcompl : Range.compl ⟨first :: rest⟩ =
        .ofOptional (first.before? :: Range.gapsAfter (first :: rest)) := rfl
      simp only [List.getElem?_cons_zero, hlast, Option.bind_eq_bind, Option.bind_some]
      rw [hcompl, hgaps]
      rfl

/-! ### Series -/

/-- The range of the series that the number of the given name tells apart; without such a number
there is none. -/
def series (v : Version) (name : String) : Option Range :=
  (Component.ofName name).toOption.map (.series v)

theorem series_ite (v : Version) (p : Prop) [Decidable p] {name name' : String}
    {component component' : Component} (h : series v name = some (.series v component))
    (h' : series v name' = some (.series v component')) :
    series v (if p then name else name') =
      some (.series v (if p then component else component')) := by
  split
  · exact h
  · exact h'

theorem series_major (v : Version) : series v "major" = some (.series v .major) := rfl

theorem series_minor (v : Version) : series v "minor" = some (.series v .minor) := rfl

theorem series_patch (v : Version) : series v "patch" = some (.series v .patch) := rfl

/-! ### npm -/

namespace Npm

def version (text : List Char) : Script Version := Script.version (Versioning.Npm.dropMark text)

theorem realizes_version (text : List Char) :
    (version text).Realizes (Versioning.Npm.version text) := .version _

def caret (v : Version) : Option Range :=
  series v
    (if 0 < v.release.major then "major" else if 0 < v.release.minor then "minor" else "patch")

theorem caret_eq (v : Version) : caret v = some (Versioning.Npm.caret v) :=
  series_ite v _ (series_major v) (series_ite v _ (series_minor v) (series_patch v))

def tilde (v : Version) : Option Range := series v (if v.minor.isSome then "minor" else "major")

theorem tilde_eq (v : Version) : tilde v = some (Versioning.Npm.tilde v) :=
  series_ite v _ (series_minor v) (series_major v)

/-- The range of a comparator of up to three parts one of which is a wildcard, if it is one: the
parts before that are looked up and read as numbers. -/
def wildcardRange (comparator : List Char) : Option (Option Range) :=
  let parts := comparator.splitOn '.'
  if 3 < parts.length then some none
  else
    match parts.findIdx? Versioning.Npm.isWildcard with
    | none => some none
    | some index =>
      let fixed := parts.take index
      if !fixed.all isNumeric then some none
      else if fixed.isEmpty then some (some .unbounded)
      else do
        let major ← number? (← fixed[0]?)
        if fixed.length == 1 then
          return some (.series (.ofRelease ⟨major, 0, 0⟩) .major)
        else
          let minor ← number? (← fixed[1]?)
          return some (.series (.ofRelease ⟨major, minor, 0⟩) .minor)

theorem wildcardRange_eq (comparator : List Char) :
    wildcardRange comparator = some (Versioning.Npm.wildcardRange? comparator) := by
  simp only [wildcardRange, Versioning.Npm.wildcardRange?]
  generalize comparator.splitOn '.' = parts
  by_cases hlength : 3 < parts.length
  · simp [hlength]
  · rw [List.takeWhile_eq_take_findIdx_not]
    simp only [Bool.not_not]
    cases hindex : parts.findIdx? Versioning.Npm.isWildcard with
    | none =>
      rw [List.findIdx?_eq_none_iff_findIdx_eq.mp hindex]
      simp
    | some index =>
      obtain ⟨hlt, rfl⟩ := List.findIdx?_eq_some_iff_findIdx_eq.mp hindex
      have hne : (parts.take (parts.findIdx Versioning.Npm.isWildcard)).length ≠ parts.length := by
        rw [List.length_take]
        omega
      dsimp only
      generalize parts.take (parts.findIdx Versioning.Npm.isWildcard) = fixed at hne ⊢
      simp only [hlength, if_false, decide_false, Bool.false_or, beq_eq_false_iff_ne.mpr hne]
      by_cases hall : fixed.all isNumeric = true
      · have hnumber : ∀ part ∈ fixed, number? part = some (numeral part) := fun part hpart =>
          number?_of_isNumeric (List.all_eq_true.mp hall part hpart)
        simp only [hall]
        obtain _ | ⟨major, _ | ⟨minor, rest⟩⟩ := fixed
        · rfl
        · simp [hnumber]
        · simp [hnumber]
      · simp [hall]

def constraint (text : List Char) : Script Range := do
  let c ← ofExcept (Constraint.parse (String.ofList text))
  return .ofConstraints [(c.operator, ← version c.version.toList)]

def plainComparator (text : List Char) : Script Range := do
  match ← ofOption (wildcardRange text) with
  | some range => return range
  | none => constraint text

theorem realizes_plainComparator (text : List Char) : (plainComparator text).Realizes
    (match Versioning.Npm.wildcardRange? text with
      | some range => pure range
      | none => Versioning.Npm.constraint text) := by
  refine .ofOption_bind (wildcardRange_eq text) ?_
  cases Versioning.Npm.wildcardRange? text with
  | some range => exact .pure range
  | none => exact .bind (.ofExcept _) fun c => .bind (realizes_version _) fun v => .pure _

def comparator (text : List Char) : Script Range :=
  if Versioning.Npm.isLocation text then .fail (.npm (.location (String.ofList text)))
  else
    match text with
    | '^' :: rest => do ofOption (caret (← version rest))
    | '~' :: rest => do ofOption (tilde (← version (rest.dropWhile (· == '>'))))
    | _ => plainComparator text

theorem realizes_comparator (text : List Char) :
    (comparator text).Realizes (Versioning.Npm.comparator text) := by
  unfold comparator Versioning.Npm.comparator
  split
  next => exact .fail _
  next =>
    -- Both sides match on the first character, in the same order.
    have hplain := realizes_plainComparator text
    obtain _ | ⟨first, rest⟩ := text
    · exact hplain
    · by_cases hcaret : first = '^'
      · subst hcaret
        exact .mapOption caret_eq (realizes_version rest)
      · by_cases htilde : first = '~'
        · subst htilde
          exact .mapOption tilde_eq (realizes_version _)
        · simp only [List.cons.injEq, hcaret, false_and, imp_self, implies_true, htilde]
          exact hplain

/-- The versions from the one before the dash to the one after it. -/
def hyphenRange (set : String) (tokens : List (List Char)) : Script Range := do
  if tokens.length != 3 then .fail (.npm (.hyphen set))
  else
    if (← ofOption tokens[1]?) != ['-'] then .fail (.npm (.hyphen set))
    else
      let min ← version (← ofOption tokens[0]?)
      let max ← version (← ofOption tokens[2]?)
      return .ofInterval ⟨{ version := min }, { version := max }⟩

theorem realizes_hyphenRange (set : String) (tokens : List (List Char)) :
    (hyphenRange set tokens).Realizes (Versioning.Npm.hyphenRange set tokens) := by
  unfold hyphenRange
  fun_cases Versioning.Npm.hyphenRange set tokens with
  | case1 lower upper =>
    refine .bind (realizes_version lower) fun min => ?_
    exact .bind (realizes_version upper) fun max => .pure _
  | case2 tokens h =>
    split
    · exact .fail _
    next hlength =>
      obtain ⟨lower, dash, upper, rfl⟩ := List.length_eq_three.mp (by simpa using hlength)
      have hdash : dash ≠ ['-'] := by
        rintro rfl
        exact h _ _ rfl
      refine .ofOption_bind (x := dash) rfl ?_
      rw [if_pos (by simpa using hdash)]
      exact .fail _

def conjunction : List (List Char) → Script Range
  | [] => pure .unbounded
  | first :: rest => do
    rest.foldlM (fun range text => range.inter <$> comparator text) (← comparator first)

theorem realizes_conjunction (comparators : List (List Char)) :
    (conjunction comparators).Realizes (Versioning.Npm.conjunction comparators) := by
  cases comparators with
  | nil => exact .pure _
  | cons first rest =>
    exact .bind (realizes_comparator first) fun r =>
      .foldlM rest (fun s text => .map _ (realizes_comparator text)) r

def comparatorSet (text : List Char) : Script Range :=
  let set := String.ofList text
  let tokens := words text
  if tokens.contains ['-'] then hyphenRange set tokens
  else do conjunction (← ofExcept (Versioning.Npm.attachOperators set none tokens))

theorem realizes_comparatorSet (text : List Char) :
    (comparatorSet text).Realizes (Versioning.Npm.comparatorSet text) := by
  unfold comparatorSet Versioning.Npm.comparatorSet
  dsimp only
  split
  · exact realizes_hyphenRange _ _
  · exact .bind (.ofExcept _) realizes_conjunction

def parse (text : String) : Script Range :=
  match splitOnPair '|' (strip text.toList) with
  | [set] => comparatorSet set
  | sets => sets.foldlM (fun range set => range.union <$> comparatorSet (strip set)) .empty

theorem realizes_parse (text : String) : (parse text).Realizes (Versioning.Npm.parse text) := by
  unfold parse Versioning.Npm.parse
  obtain _ | ⟨set, _ | ⟨second, rest⟩⟩ := splitOnPair '|' (strip text.toList)
  · exact .pure _
  · exact realizes_comparatorSet set
  · exact .foldlM _ (fun r set => .map _ (realizes_comparatorSet _)) _

end Npm

/-! ### Gems -/

namespace Gem

open Versioning.Gem (pessimistic?)

def pessimistic (v : Version) : Option Range :=
  series v (if v.patch.isSome then "minor" else "major")

theorem pessimistic_eq (v : Version) : pessimistic v = some (Versioning.Gem.pessimistic v) :=
  series_ite v _ (series_minor v) (series_major v)

def pessimisticRange (rest : List Char) : Script Range :=
  let text := strip rest
  if text.isEmpty then .fail (.gem .noVersion)
  else do ofOption (pessimistic (← Script.version text))

theorem realizes_pessimisticRange (rest : List Char) :
    (pessimisticRange rest).Realizes (Versioning.Gem.pessimisticRange rest) := by
  unfold pessimisticRange Versioning.Gem.pessimisticRange
  dsimp only
  split
  · exact .fail _
  · exact .mapOption pessimistic_eq (.version _)

def parse (text : String) : Script Range :=
  if (strip text.toList).isEmpty then pure .unbounded
  else
    let requirements := (text.toList.splitOn ',').map strip
    if requirements.any (·.isEmpty) then .fail (.gem (.blank text))
    else do
      let plain := requirements.filter (pessimistic? · |>.isNone)
      let start ← if plain.isEmpty then pure .unbounded else rangeOfPieces plain
      (requirements.filterMap pessimistic?).foldlM
        (fun range rest => range.inter <$> pessimisticRange rest) start

theorem realizes_parse (text : String) : (parse text).Realizes (Versioning.Gem.parse text) := by
  unfold parse Versioning.Gem.parse
  split
  · exact .pure _
  · dsimp only
    split
    · exact .fail _
    · have hnarrow (rests : List (List Char)) (start : Range) :=
        Realizes.foldlM rests (fun range rest => .map range.inter (realizes_pessimisticRange rest))
          start
      split
      · exact .bind (.pure _) (hnarrow _)
      · exact .bind (realizes_rangeOfPieces _) (hnarrow _)

end Gem

/-! ### Specifier sets -/

namespace Pypi

open Versioning.Pypi (Clause dropMark wildcardStart?)

def compatible (v : Version) : Option Range :=
  series v (if v.patch.isSome then "minor" else "major")

theorem compatible_eq (v : Version) : compatible v = some (Versioning.Pypi.compatible v) :=
  series_ite v _ (series_minor v) (series_major v)

def prefixed (v : Version) : Option Range :=
  series v (if v.patch.isSome then "patch" else if v.minor.isSome then "minor" else "major")

theorem prefixed_eq (v : Version) : prefixed v = some (Versioning.Pypi.prefixed v) :=
  series_ite v _ (series_patch v) (series_ite v _ (series_minor v) (series_major v))

/-- The operator of constraints that is written so, if there is one. -/
def operatorOf (symbol : String) : Option Operator := Operator.all.find? (·.symbol == symbol)

def clauseOf (s : Specifier) : Script Clause :=
  let text := dropMark s.version
  match s.operator, wildcardStart? text with
  | "~=", _ => do return .range (← ofOption (compatible (← Script.version text)))
  | "==", some start => do return .range (← ofOption (prefixed (← Script.version start)))
  | "!=", some start => do
    let range ← ofOption (prefixed (← Script.version start))
    return .range (← ofOption (compl range))
  | "==", none | "===", _ => return .constraint ⟨.equal, String.ofList text⟩
  | operator, _ => do
    return .constraint ⟨← ofOption (operatorOf operator), String.ofList text⟩

/-- The operators that are dealt with apart are just those that no constraint has. -/
theorem realizes_clauseOf {s : Specifier} (h : s.operator ∈ Specifier.operators) :
    (clauseOf s).Realizes (Clause.ofSpecifier s) := by
  obtain ⟨operator, version⟩ := s
  unfold clauseOf Clause.ofSpecifier
  dsimp only at h ⊢
  simp only [Specifier.operators, List.mem_cons, List.not_mem_nil, or_false] at h
  generalize wildcardStart? (dropMark version) = start?
  rcases h with rfl | rfl | rfl | rfl | rfl | rfl | rfl | rfl
  case inr.inl => exact .bind (.version _) fun v => .ofOption_bind (compatible_eq v) (.pure _)
  case inr.inr.inl =>
    cases start? with
    | some start => exact .bind (.version _) fun v => .ofOption_bind (prefixed_eq v) (.pure _)
    | none => exact .pure _
  case inr.inr.inr.inl =>
    cases start? with
    | some start =>
      exact .bind (.version _) fun v =>
        .ofOption_bind (prefixed_eq v) (.ofOption_bind (compl_eq _) (.pure _))
    | none => exact .pure _
  all_goals exact .pure _

-- No operator of constraints is written like this one.
example : (clauseOf ⟨"<>", ['1']⟩).run.isNone = true := by decide +kernel

def readClause [Specifier.Reader] (set : String) (piece : List Char) : Script Clause := do
  clauseOf (← ofExcept (Versioning.Pypi.specifier set (strip piece)))

def parse [Specifier.Reader] (text : String) : Script Range :=
  if (strip text.toList).isEmpty then pure .unbounded
  else do
    let clauses ← (text.toList.splitOn ',').mapM (readClause text)
    let constraints := clauses.filterMap Clause.constraint?
    let start ← if constraints.isEmpty then pure .unbounded else buildRange constraints
    return (clauses.filterMap Clause.range?).foldl .inter start

section Realized

variable [Specifier.Reader]
  (h : ∀ clause, ∀ s ∈ Specifier.Reader.ofClause? clause, s.operator ∈ Specifier.operators)

include h

theorem realizes_readClause (set : String) (piece : List Char) :
    (readClause set piece).Realizes (Versioning.Pypi.readClause set piece) := by
  unfold readClause Versioning.Pypi.readClause Versioning.Pypi.specifier
  cases hs : Specifier.Reader.ofClause? (Versioning.Pypi.complete (strip piece)) with
  | none => exact .fail _
  | some s => exact realizes_clauseOf (h _ s hs)

theorem realizes_parse (text : String) : (parse text).Realizes (Versioning.Pypi.parse text) := by
  unfold parse Versioning.Pypi.parse
  split
  · exact .pure _
  · refine .bind (.mapM _ fun piece => realizes_readClause h text piece) fun clauses => ?_
    dsimp only
    split
    · exact .bind (.pure _) fun start => .pure _
    · exact .bind (realizes_buildRange _) fun start => .pure _

end Realized

end Pypi

/-! ### Bracket notation -/

namespace Bracket

open Versioning.Bracket (Group isPlainVersion)

/-- The groups of a text from a place at the given offset on, where the character at each offset is
looked up. -/
def groupsFrom (text : List Char) (place : Bracket.Place) (offset : Nat) :
    Option (Except BracketFault (List Group)) :=
  let whole := String.ofList text
  if offset < text.length then do
    let c ← text[offset]?
    match place with
    | .before =>
      if isBlank c then groupsFrom text .before (offset + 1)
      else if c == '[' || c == '(' then groupsFrom text (.inside (c == '[') []) (offset + 1)
      else return .error (.expectedBracket offset whole)
    | .inside lowerInclusive read =>
      if c == ']' || c == ')' then
        let groups ← groupsFrom text .after (offset + 1)
        return groups.map (⟨lowerInclusive, read.reverse, c == ']'⟩ :: ·)
      else if c == '[' || c == '(' then return .error (.nested offset whole)
      else groupsFrom text (.inside lowerInclusive (c :: read)) (offset + 1)
    | .after =>
      if isBlank c then groupsFrom text .after (offset + 1)
      else if c == ',' then groupsFrom text .before (offset + 1)
      else return .error (.expectedComma offset whole)
  else
    match place with
    | .before => some (.error (.trailingComma whole))
    | .inside _ _ => some (.error (.unclosed whole))
    | .after => some (.ok [])
termination_by text.length - offset

theorem groupsFrom_eq (text : List Char) (place : Bracket.Place) (offset : Nat) :
    groupsFrom text place offset =
      some (Group.readFrom (String.ofList text) place offset (text.drop offset)) := by
  -- By recursion on the offset, for all places at once: a character may change the place.
  by_cases hlt : offset < text.length
  · have ih (place : Bracket.Place) := groupsFrom_eq text place (offset + 1)
    rw [groupsFrom.eq_def]
    dsimp only
    rw [if_pos hlt, List.drop_eq_getElem_cons hlt, List.getElem?_eq_getElem hlt,
      Option.bind_eq_bind, Option.bind_some]
    simp only [ih]
    generalize text[offset] = c
    cases place <;> simp only [Group.readFrom, apply_ite some] <;> rfl
  · rw [groupsFrom.eq_def]
    dsimp only
    rw [if_neg hlt, List.drop_eq_nil_of_le (Nat.le_of_not_lt hlt)]
    cases place <;> rfl
termination_by text.length - offset

def version? (text : List Char) : Script (Option Version) :=
  if text.isEmpty then pure none else some <$> Script.version text

theorem realizes_version? (text : List Char) :
    (version? text).Realizes (Versioning.Bracket.version? text) := by
  unfold version? Versioning.Bracket.version?
  split
  · exact .pure _
  · exact .map _ (.version _)

/-- The range of a group, the first and last characters of which are looked up. -/
def range (ecosystem : String) (group : List Char) : Script Range := do
  let opener ← ofOption group[0]?
  let closer ← ofOption group.getLast?
  let fail := fun (fault : String → BracketFault) =>
    Script.fail (.bracket ecosystem (fault (String.ofList group)))
  match cutAt ',' group.tail.dropLast with
  | (inner, none) =>
    let text := strip inner
    if opener == '[' && closer == ']' && !text.isEmpty then .exact <$> Script.version text
    else fail .mismatched
  | (first, some second) =>
    let lower := strip first
    let upper := strip second
    if upper.contains ',' then fail .tooManyBounds
    else if lower.isEmpty && upper.isEmpty then fail .noBounds
    else if lower.isEmpty && opener != '(' || upper.isEmpty && closer != ')' then
      fail .closedOpenSide
    else do
      let min ← version? lower
      let max ← version? upper
      let interval : Interval := ⟨⟨min, opener == '['⟩, ⟨max, closer == ']'⟩⟩
      if interval.isEmpty then fail .noVersion else return .ofInterval interval

theorem realizes_range (ecosystem : String) (g : Group) :
    (range ecosystem g.text.toList).Realizes (g.range ecosystem) := by
  have htext : g.text.toList = (if g.lowerInclusive then '[' else '(') :: g.inner ++
      [if g.upperInclusive then ']' else ')'] := String.toList_ofList
  have hopener : g.text.toList[0]? = some (if g.lowerInclusive then '[' else '(') := by
    rw [htext]
    rfl
  have hcloser : g.text.toList.getLast? = some (if g.upperInclusive then ']' else ')') := by
    rw [htext, List.getLast?_concat]
  have hinner : g.text.toList.tail.dropLast = g.inner := by
    rw [htext, List.cons_append, List.tail_cons, List.dropLast_concat]
  unfold range Group.range
  refine .ofOption_bind hopener (.ofOption_bind hcloser ?_)
  rw [hinner, String.ofList_toList]
  have hopen : ((if g.lowerInclusive then '[' else '(') == '[') = g.lowerInclusive := by
    cases g.lowerInclusive <;> rfl
  have hclose : ((if g.upperInclusive then ']' else ')') == ']') = g.upperInclusive := by
    cases g.upperInclusive <;> rfl
  have hopen' : ((if g.lowerInclusive then '[' else '(') != '(') = g.lowerInclusive := by
    cases g.lowerInclusive <;> rfl
  have hclose' : ((if g.upperInclusive then ']' else ')') != ')') = g.upperInclusive := by
    cases g.upperInclusive <;> rfl
  simp only [hopen, hclose, hopen', hclose']
  obtain ⟨first, _ | second⟩ := cutAt ',' g.inner
  · dsimp only
    split
    · exact .map _ (.version _)
    · exact .fail _
  · dsimp only
    split
    · exact .fail _
    split
    · exact .fail _
    split
    · exact .fail _
    refine .bind (realizes_version? _) fun min => .bind (realizes_version? _) fun max => ?_
    split
    · exact .fail _
    · exact .pure _

def parse (ecosystem : String) (other : List Char → Script Range) (text : String) :
    Script Range := do
  let stripped := strip text.toList
  if stripped.isEmpty then .fail (.bracket ecosystem .blank)
  else
    let first ← ofOption stripped[0]?
    if first == '[' || first == '(' then
      let groups ← ofOption (groupsFrom stripped .before 0)
      let groups ← ofExcept (groups.mapError (.bracket ecosystem))
      if groups.length == 1 then
        let group ← ofOption groups[0]?
        range ecosystem group.text.toList
      else groups.foldlM (fun r group => r.union <$> range ecosystem group.text.toList) .empty
    else if isPlainVersion stripped then (Range.above · true) <$> Script.version stripped
    else other stripped

theorem realizes_parse (ecosystem : String) {other : List Char → Script Range}
    {other' : List Char → Lookup Range} (hother : ∀ text, (other text).Realizes (other' text))
    (text : String) :
    (parse ecosystem other text).Realizes (Versioning.Bracket.parse ecosystem other' text) := by
  unfold parse Versioning.Bracket.parse
  dsimp only
  generalize strip text.toList = stripped
  obtain _ | ⟨first, rest⟩ := stripped
  · exact .fail _
  · refine .ofOption_bind (x := first) rfl ?_
    dsimp only
    split
    next =>
      refine .ofOption_bind (groupsFrom_eq _ _ _) (.bind (.ofExcept _) fun groups => ?_)
      obtain _ | ⟨group, _ | _⟩ := groups
      · exact .pure _
      · exact realizes_range ecosystem group
      · exact .foldlM _ (fun r group => .map (Range.union r) (realizes_range ecosystem group)) _
    next =>
      split
      · exact .map _ (.version _)
      · exact hother _

end Bracket

/-! ### Grammars by the name of the ecosystem -/

def parseDebian (text : String) : Script Range :=
  let single := fun sign cs => [sign].intercalate (splitOnPair sign cs)
  rangeOfList (single '<' (single '>' text.toList))

/-- The grammar of each ecosystem. -/
def grammars [Specifier.Reader] : List (Scheme × (String → Script Range)) :=
  [(.npm, Npm.parse), (.gem, Gem.parse), (.pypi, Pypi.parse),
    (.maven, Bracket.parse "maven" rangeOfList),
    (.nuget, Bracket.parse "nuget" fun text =>
      .fail (.bracket "nuget" (.form (String.ofList text)))),
    (.deb, parseDebian), (.rpm, fun text => rangeOfList text.toList)]

def grammarOf [Specifier.Reader] (scheme text : String) : Script Range :=
  match Scheme.ofName? scheme with
  | some ecosystem => do (← ofOption (grammars.lookup ecosystem)) text
  | none => rangeOfList text.toList

/-- The outcome of reading a native range; there is none if the grammar gets stuck. -/
def parseNative [Specifier.Reader] (text scheme : String) : Option (Except FormatError Range) :=
  (grammarOf scheme text).run.map (·.mapError fun e =>
    if e.kind = .range then e else .native scheme text e)

section Realized

variable [Specifier.Reader]
  (h : ∀ clause, ∀ s ∈ Specifier.Reader.ofClause? clause, s.operator ∈ Specifier.operators)

include h

theorem realizes_parse (ecosystem : Scheme) (text : String) :
    (do (← ofOption (grammars.lookup ecosystem)) text : Script Range).Realizes
      (ecosystem.parse text) := by
  cases ecosystem with
  | npm => exact .ofOption_bind rfl (Npm.realizes_parse text)
  | gem => exact .ofOption_bind rfl (Gem.realizes_parse text)
  | pypi => exact .ofOption_bind rfl (Pypi.realizes_parse h text)
  | maven => exact .ofOption_bind rfl (Bracket.realizes_parse "maven" realizes_rangeOfList text)
  | nuget => exact .ofOption_bind rfl (Bracket.realizes_parse "nuget" (fun _ => .fail _) text)
  | deb => exact .ofOption_bind rfl (realizes_rangeOfList _)
  | rpm => exact .ofOption_bind rfl (realizes_rangeOfList _)

theorem realizes_grammarOf (scheme text : String) :
    (grammarOf scheme text).Realizes (Range.grammarOf scheme text) := by
  unfold grammarOf Range.grammarOf
  cases Scheme.ofName? scheme with
  | some ecosystem => exact realizes_parse h ecosystem text
  | none => exact realizes_rangeOfList _

theorem parseNative_eq (text scheme : String) :
    parseNative text scheme = some (Range.parseNative text scheme).run := by
  rw [parseNative, (realizes_grammarOf h scheme text).run_eq, Range.parseNative,
    Lookup.run_mapError]
  rfl

end Realized

end Versioning.Checked
