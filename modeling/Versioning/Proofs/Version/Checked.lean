import Versioning.Proofs.Version.Build

/-! Versions that are read and compared step by step, where each element of a list is looked up by
its index and each number is read from a text, either of which may not be there.  None of these
steps ever fails: the pieces are counted and the digits found before. -/

namespace Versioning.Checked

open Text

/-- The number that decimal digits of any script write; no other text writes one. -/
def number? (text : List Char) : Option Nat :=
  if text.isEmpty || !text.all isDecimal then none else some (numeral text)

theorem number?_eq {text : List Char} (hne : text.isEmpty = false)
    (h : ∀ c ∈ text, isDecimal c = true) : number? text = some (numeral text) := by
  have hall : text.all isDecimal = true := List.all_eq_true.mpr h
  rw [number?, hne, hall]
  rfl

theorem number?_takeWhile {text : List Char} (hne : (text.takeWhile isDecimal).isEmpty = false) :
    number? (text.takeWhile isDecimal) = some (numeral (text.takeWhile isDecimal)) :=
  number?_eq hne fun _ hc => List.mem_takeWhile_imp hc

theorem number?_of_isNumeric {text : List Char} (h : isNumeric text = true) :
    number? text = some (numeral text) := by
  obtain ⟨hne, hall⟩ := Bool.and_eq_true_iff.mp h
  exact number?_eq (by simpa using hne) fun c hc =>
    isDecimal_of_isDigit (List.all_eq_true.mp hall c hc)

/-! ### Texts of the usual shape -/

/-- A number after a dot, if the text starts so, and the text after it. -/
def dottedNumber : List Char → Option (Option Int × List Char)
  | '.' :: text =>
    let digits := text.takeWhile isDecimal
    if digits.isEmpty then some (none, '.' :: text)
    else do return (some (← number? digits), text.dropWhile isDecimal)
  | text => some (none, text)

theorem dottedNumber_eq (text : List Char) :
    dottedNumber text = some (Components.dottedNumber text) := by
  fun_cases Components.dottedNumber text with
  | case1 text digits hd => simp [dottedNumber, digits, hd]
  | case2 text digits hd =>
    have hnumber := number?_takeWhile (Bool.eq_false_iff.mpr hd)
    simp only [dottedNumber]
    rw [if_neg hd, hnumber]
    rfl
  | case3 text hdot =>
    unfold dottedNumber
    split
    · exact absurd rfl (hdot _)
    · rfl

/-- The components of a text of the shape `N[.N][.N][-prerelease][+build]`, if it has that. -/
def ofShape (text : List Char) : Option (Option Components) :=
  let digits := text.takeWhile isDecimal
  if digits.isEmpty then some none
  else do
    let major ← number? digits
    let (minor, rest) ← dottedNumber (text.dropWhile isDecimal)
    let (patch, rest) ← dottedNumber rest
    let (prerelease, rest) := Components.dashedPart rest
    return (Components.buildPart? rest).map fun build => { major, minor, patch, prerelease, build }

theorem ofShape_eq (text : List Char) : ofShape text = some (Components.ofShape? text) := by
  simp only [ofShape, Components.ofShape?]
  split
  next => rfl
  next h =>
    rw [number?_takeWhile (Bool.eq_false_iff.mpr h)]
    simp only [dottedNumber_eq]
    rfl

/-! ### Texts that are read by their pieces -/

/-- The number in ASCII digits that the piece starts with, zero if there is none. -/
def leadingNumber (piece : List Char) : Option Nat :=
  let digits := piece.takeWhile Char.isDigit
  if digits.isEmpty then some 0 else number? digits

theorem leadingNumber_eq (piece : List Char) :
    leadingNumber piece = some (Components.leadingNumber piece) := by
  unfold leadingNumber Components.leadingNumber
  dsimp only
  split
  next h => rw [List.isEmpty_iff.mp h, numeral, List.foldl_nil]
  next h =>
    exact number?_eq (Bool.eq_false_iff.mpr h) fun c hc =>
      isDecimal_of_isDigit (List.mem_takeWhile_imp hc)

/-- The minor number in the second of the pieces, if there is one. -/
def minorOf (pieces : List (List Char)) : Option (Option Int) :=
  if 1 < pieces.length then do
    let second ← pieces[1]?
    if second.contains '-' then return none else return some (← leadingNumber second)
  else some none

/-- The patch number and the prerelease that the third piece and those after it give. -/
def tailOf (pieces : List (List Char)) : Option (Option Int × Option String) :=
  if 2 < pieces.length then do
    let (number, suffix) := cutAt '-' (← pieces[2]?)
    let patch ← leadingNumber number
    let prerelease := suffix.bind Components.nonempty?
    if 3 < pieces.length && prerelease.isNone then
      return (some patch, Components.nonempty? (['.'].intercalate (pieces.drop 3)))
    else return (some patch, prerelease)
  else some (none, none)

/-- The components of a text that starts with an ASCII digit and has a dot or a dash. -/
def ofPieces (text : List Char) : Option (Option Components) :=
  if text.contains '.' then do
    let pieces := text.splitOn '.'
    let first ← pieces[0]?
    if first.head?.any Char.isDigit then
      let major ← leadingNumber first
      let minor ← minorOf pieces
      let (patch, prerelease) ← tailOf pieces
      return some { major, minor, patch, prerelease }
    else return none
  else
    match cutAt '-' text with
    | (number, some suffix) => do
      if number.head?.any Char.isDigit then
        let major ← leadingNumber number
        return some { major, prerelease := Components.nonempty? suffix }
      else return none
    | (_, none) => some none

theorem minorOf_eq (first second : List Char) (more : List (List Char)) :
    minorOf (first :: second :: more) = some
      (if second.contains '-' then none else some (Components.leadingNumber second : Int)) := by
  simp only [minorOf, leadingNumber_eq, List.length_cons, List.getElem?_cons_succ,
    List.getElem?_cons_zero, Option.bind_eq_bind, Option.bind_some, Option.pure_def]
  rw [if_pos (by omega)]
  split <;> rfl

theorem tailOf_eq (first second : List Char) (more : List (List Char)) :
    tailOf (first :: second :: more) = some (Components.looseTail more) := by
  cases more with
  | nil => rfl
  | cons third rest =>
    simp only [tailOf, leadingNumber_eq, List.length_cons, List.getElem?_cons_succ,
      List.getElem?_cons_zero, List.drop_succ_cons, List.drop_zero, Option.bind_eq_bind,
      Option.bind_some, Option.pure_def, Components.looseTail]
    rw [if_pos (by omega)]
    cases (cutAt '-' third).2.bind Components.nonempty? with
    | some prerelease => simp
    | none => cases rest <;> simp [Components.nonempty?]

theorem head?_any_append {c : Char} {before after : List Char} (hc : c.isDigit = false) :
    (before ++ c :: after).head?.any Char.isDigit = before.head?.any Char.isDigit := by
  cases before with
  | nil => simp [hc]
  | cons first rest => rfl

theorem ofPieces_eq (text : List Char) : ofPieces text = some (Components.ofPieces? text) := by
  by_cases hdot : '.' ∈ text
  · obtain ⟨first, second, more, hsplit⟩ := exists_splitOn_of_mem hdot
    have hhead : text.head?.any Char.isDigit = first.head?.any Char.isDigit := by
      rw [eq_append_of_splitOn hsplit, head?_any_append rfl]
    simp only [ofPieces, Components.ofPieces?, hhead, hsplit, List.contains_iff_mem.mpr hdot,
      if_true, List.getElem?_cons_zero, leadingNumber_eq, minorOf_eq, tailOf_eq,
      Option.bind_eq_bind, Option.bind_some, Option.pure_def]
    cases first.head?.any Char.isDigit <;> rfl
  · have hcontains : text.contains '.' = false := by simpa using hdot
    by_cases hdash : '-' ∈ text
    · obtain ⟨number, suffix, rfl, hnumber⟩ := List.eq_append_cons_of_mem hdash
      simp only [ofPieces, Components.ofPieces?, hcontains, List.splitOn_eq_singleton hdot,
        cutAt_append hnumber, @head?_any_append '-' _ _ rfl, leadingNumber_eq, Option.bind_eq_bind,
        Option.bind_some, Option.pure_def]
      cases number.head?.any Char.isDigit <;> rfl
    · simp [ofPieces, Components.ofPieces?, hdot, List.splitOn_eq_singleton hdot,
        cutAt_of_not_mem hdash]

/-! ### Versions -/

/-- The version that the text shows: a number in ASCII digits is the major one, without a look at
the shape. -/
def parse (text : String) : Option (Except FormatError Version) :=
  if text.toList.any isBlank then some (.error (.version text))
  else if isNumeric text.toList then do
    return .ok { major := ← number? text.toList, text }
  else do
    match ← ofShape text.toList with
    | some components => return .ok { components with text }
    | none =>
      match ← ofPieces text.toList with
      | some components => return .ok { components with text }
      | none => return .error (.version text)

theorem ofShape?_of_isNumeric {text : List Char} (h : isNumeric text = true) :
    Components.ofShape? text = some { major := numeral text } := by
  obtain ⟨hne, hall⟩ := Bool.and_eq_true_iff.mp h
  have hdecimal : ∀ c ∈ text, isDecimal c = true := fun c hc =>
    isDecimal_of_isDigit (List.all_eq_true.mp hall c hc)
  simp only [Components.ofShape?, List.takeWhile_eq_self_iff.mpr hdecimal,
    List.dropWhile_eq_nil_iff.mpr hdecimal]
  rw [if_neg (by simpa using hne)]
  rfl

theorem parse_eq (text : String) : parse text = some (Version.parse text) := by
  unfold parse Version.parse Components.ofText?
  split
  next => rfl
  next =>
    split
    next h =>
      rw [number?_of_isNumeric h, ofShape?_of_isNumeric h]
      rfl
    next =>
      rw [ofShape_eq, ofPieces_eq]
      cases Components.ofShape? text.toList with
      | some c => rfl
      | none => cases Components.ofPieces? text.toList <;> rfl

/-! ### Order -/

def compareIdentifiers (a b : Identifier) : Option Ordering :=
  if isNumeric a && isNumeric b then do return Ord.compare (← number? a) (← number? b)
  else some (Ord.compare a b)

theorem compareIdentifiers_eq (a b : Identifier) :
    compareIdentifiers a b = some (a.compare b) := by
  unfold compareIdentifiers Identifier.compare
  split
  next h =>
    obtain ⟨ha, hb⟩ := Bool.and_eq_true_iff.mp h
    rw [number?_of_isNumeric ha, number?_of_isNumeric hb]
    rfl
  next => rfl

/-- The first difference of two lists of identifiers, else that of their lengths. -/
def compareLists : List Identifier → List Identifier → Option Ordering
  | [], [] => some .eq
  | [], _ :: _ => some .lt
  | _ :: _, [] => some .gt
  | a :: as, b :: bs => do
    match ← compareIdentifiers a b with
    | .eq => compareLists as bs
    | difference => return difference

theorem compareLists_eq (as bs : List Identifier) :
    compareLists as bs = some (List.compareLex Identifier.compare as bs) := by
  induction as generalizing bs with
  | nil => cases bs <;> rfl
  | cons a as ih =>
    cases bs with
    | nil => rfl
    | cons b bs =>
      simp only [compareLists, compareIdentifiers_eq, ih, List.compareLex_cons_cons,
        Option.bind_eq_bind, Option.bind_some]
      cases a.compare b <;> rfl

def compare (a b : Version) : Option Ordering := do
  let order := a.release.compare b.release
  if order.isEq then
    match a.identifiers, b.identifiers with
    | none, none => return .eq
    | none, some _ => return .gt
    | some _, none => return .lt
    | some as, some bs => compareLists as bs
  else return order

theorem compare_eq (a b : Version) : compare a b = some (Ord.compare a b) := by
  change compare a b = some (Version.compare a b)
  unfold compare Version.compare
  cases a.release.compare b.release with
  | lt => rfl
  | gt => rfl
  | eq => cases a.identifiers <;> cases b.identifiers <;> simp [comparePrereleases, compareLists_eq]

end Versioning.Checked
