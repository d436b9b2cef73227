import Versioning.Proofs.Native.Conjunction
import Versioning.Proofs.Uri

/-! Which texts are URIs of ranges, and what is wrong with the others.  The form of the text is
looked at first.  Then every piece of its list is taken apart, before the version of any is read; so
a piece without a version counts before a version that cannot be read, wherever the two stand. -/

namespace Versioning

/-! ### The longest operator -/

namespace Operator

variable {op : Operator} {text rest : List Char}

/-- The text starts with the operator and with none that is longer. -/
def IsLongest (op : Operator) (text : List Char) : Prop :=
  op.symbol.toList <+: text ∧
    ∀ other : Operator, other.symbol.toList <+: text →
      other.symbol.toList.length ≤ op.symbol.toList.length

theorem mem_all (op : Operator) : op ∈ all := by
  cases op <;> decide

theorem symbol_injective : Function.Injective symbol := by
  intro a b h
  cases a <;> cases b <;> first | rfl | exact absurd h (by decide)

theorem all_pairwise : all.Pairwise fun a b => b.symbol.toList.length ≤ a.symbol.toList.length := by
  decide

theorem split?_eq_none_iff :
    split? text = none ↔ ∀ op : Operator, ¬op.symbol.toList <+: text := by
  rw [split?, List.findSome?_eq_none_iff]
  simp only [Option.map_eq_none_iff, Text.dropStart?_eq_none_iff, mem_all, forall_const]

/-- The operators are tried from the longest to the shortest. -/
theorem isLongest_of_split? (h : split? text = some (op, rest)) : op.IsLongest text := by
  refine ⟨⟨rest, (eq_append_of_split? h).symm⟩, fun other hother => ?_⟩
  obtain ⟨before, first, after, hall, hfirst, hbefore⟩ := List.findSome?_eq_some_iff.mp h
  obtain ⟨_, _, heq⟩ := Option.map_eq_some_iff.mp hfirst
  obtain rfl : first = op := (Prod.mk.inj heq).1
  have hmem := mem_all other
  have hpairwise := all_pairwise
  rw [hall] at hmem hpairwise
  rcases List.mem_append.mp hmem with hmem | hmem
  · have hnone := Option.map_eq_none_iff.mp (hbefore other hmem)
    exact absurd hother (Text.dropStart?_eq_none_iff.mp hnone)
  · rcases List.mem_cons.mp hmem with rfl | hmem
    · exact le_refl _
    · exact List.rel_of_pairwise_cons (List.pairwise_append.mp hpairwise).2.1 hmem

theorem split?_eq_some_iff :
    split? text = some (op, rest) ↔ op.IsLongest text ∧ text = op.symbol.toList ++ rest := by
  refine ⟨fun h => ⟨isLongest_of_split? h, eq_append_of_split? h⟩, fun ⟨hlongest, hop⟩ => ?_⟩
  cases hsplit : split? text with
  | none => exact absurd hlongest.1 (split?_eq_none_iff.mp hsplit op)
  | some split =>
    obtain ⟨op', rest'⟩ := split
    have hlongest' := isLongest_of_split? hsplit
    have hlength := Nat.le_antisymm (hlongest'.2 op hlongest.1) (hlongest.2 op' hlongest'.1)
    have happend := hop.symm.trans (eq_append_of_split? hsplit)
    obtain ⟨hsymbol, rfl⟩ := List.append_inj happend hlength
    rw [symbol_injective (String.toList_injective hsymbol)]

theorem isLongest_symbol (op : Operator) : op.IsLongest op.symbol.toList :=
  ⟨List.prefix_refl _, fun _ h => h.length_le⟩

end Operator

/-! ### Pieces of a list -/

namespace Constraint

open Text (strip)

variable {piece rest : List Char}

/-- What the trimmed piece leaves after its longest operator, trimmed again; a piece without an
operator leaves all of it. -/
inductive Leaves (piece : List Char) : List Char → Prop where
  | operator {op : Operator} {after : List Char} (hlongest : op.IsLongest (strip piece))
      (hpiece : strip piece = op.symbol.toList ++ after) : Leaves piece (strip after)
  | version (hnone : ∀ op : Operator, ¬op.symbol.toList <+: strip piece) :
      Leaves piece (strip piece)

/-- The piece is blank, or only an operator. -/
def IsIncomplete (piece : List Char) : Prop :=
  strip piece = [] ∨ ∃ op : Operator, strip piece = op.symbol.toList

/-- The piece is not blank and leaves the text of a version. -/
def IsReadable (piece : List Char) : Prop :=
  strip piece ≠ [] ∧ ∃ rest v, Leaves piece rest ∧ rest ≠ [] ∧
    Version.parse (String.ofList rest) = .ok v

theorem exists_leaves (piece : List Char) : ∃ rest, Leaves piece rest := by
  cases hsplit : Operator.split? (strip piece) with
  | none => exact ⟨_, .version (Operator.split?_eq_none_iff.mp hsplit)⟩
  | some split =>
    obtain ⟨hlongest, hpiece⟩ := Operator.split?_eq_some_iff.mp hsplit
    exact ⟨_, .operator hlongest hpiece⟩

theorem isIncomplete_of_leaves_nil (h : Leaves piece []) : IsIncomplete piece := by
  generalize hrest : ([] : List Char) = rest at h
  cases h with
  | version hnone => exact .inl hrest.symm
  | @operator op after hlongest hpiece =>
    -- The piece is trimmed, so that no blanks can follow its operator.
    refine .inr ⟨op, ?_⟩
    calc strip piece = strip (strip piece) := (Text.strip_strip piece).symm
      _ = strip (op.symbol.toList ++ after) := by rw [hpiece]
      _ = strip op.symbol.toList := Text.strip_append_of_strip_eq_nil hrest.symm
      _ = op.symbol.toList := Text.strip_eq_self Operator.isBlank_symbol

theorem parsePiece_of_split? {op : Operator} {after : List Char}
    (h : Operator.split? (strip piece) = some (op, after)) :
    parsePiece piece =
      if (strip after).isEmpty then .error (.constraint (.noVersion (String.ofList (strip piece))))
      else .ok ⟨op, String.ofList (strip after)⟩ := by
  have hne : (strip piece).isEmpty = false := by
    rw [Operator.eq_append_of_split? h]
    simp [Operator.symbol_ne_empty]
  simp only [parsePiece, hne, Bool.false_eq_true, if_false, parse, String.toList_ofList, h]

/-- A piece that leaves some text is a constraint on the version of that text. -/
theorem exists_parsePiece_of_leaves (h : Leaves piece rest) (hrest : rest ≠ []) :
    ∃ c, parsePiece piece = .ok c ∧ c.version = String.ofList rest := by
  cases h with
  | @operator op after hlongest hpiece =>
    refine ⟨⟨op, String.ofList (strip after)⟩, ?_, rfl⟩
    rw [parsePiece_of_split? (Operator.split?_eq_some_iff.mpr ⟨hlongest, hpiece⟩)]
    exact if_neg (by simpa using hrest)
  | version hnone =>
    refine ⟨⟨.equal, String.ofList (strip piece)⟩, ?_, rfl⟩
    have hne : (strip piece).isEmpty = false := by simpa using hrest
    simp only [parsePiece, hne, Bool.false_eq_true, if_false, parse, String.toList_ofList,
      Operator.split?_eq_none_iff.mpr hnone]

theorem exists_parsePiece_of_isIncomplete (h : IsIncomplete piece) :
    ∃ fault, parsePiece piece = .error (.constraint fault) := by
  rcases h with hblank | ⟨op, hop⟩
  · exact ⟨.blank, by rw [parsePiece, hblank]; rfl⟩
  · have hsplit : Operator.split? (strip piece) = some (op, []) := by
      rw [Operator.split?_eq_some_iff, hop, List.append_nil]
      exact ⟨op.isLongest_symbol, rfl⟩
    exact ⟨_, parsePiece_of_split? hsplit⟩

theorem exists_parsePiece_of_not_isIncomplete (h : ¬IsIncomplete piece) :
    ∃ c, parsePiece piece = .ok c := by
  obtain ⟨rest, hleaves⟩ := exists_leaves piece
  have hrest : rest ≠ [] := by
    rintro rfl
    exact h (isIncomplete_of_leaves_nil hleaves)
  obtain ⟨c, hc, -⟩ := exists_parsePiece_of_leaves hleaves hrest
  exact ⟨c, hc⟩

theorem not_isIncomplete_of_parsePiece {c : Constraint} (h : parsePiece piece = .ok c) :
    ¬IsIncomplete piece := by
  intro hincomplete
  obtain ⟨fault, hfault⟩ := exists_parsePiece_of_isIncomplete hincomplete
  rw [hfault] at h
  cases h

theorem exists_fault_of_parsePiece {e : FormatError} (h : parsePiece piece = .error e) :
    ∃ fault, e = .constraint fault := by
  by_cases hincomplete : IsIncomplete piece
  · obtain ⟨fault, hpiece⟩ := exists_parsePiece_of_isIncomplete hincomplete
    exact ⟨fault, Except.error.inj (h.symm.trans hpiece)⟩
  · obtain ⟨c, hc⟩ := exists_parsePiece_of_not_isIncomplete hincomplete
    rw [hc] at h
    cases h

/-- A piece is readable if the version of its constraint is. -/
theorem isReadable_iff_of_parsePiece {c : Constraint} (h : parsePiece piece = .ok c) :
    IsReadable piece ↔ ∃ v, Version.parse c.version = .ok v := by
  have hversion {rest : List Char} (hleaves : Leaves piece rest) (hrest : rest ≠ []) :
      c.version = String.ofList rest := by
    obtain ⟨c', hc', hversion⟩ := exists_parsePiece_of_leaves hleaves hrest
    rw [Except.ok.inj (h.symm.trans hc'), hversion]
  have hcomplete := not_isIncomplete_of_parsePiece h
  constructor
  · rintro ⟨-, rest, v, hleaves, hrest, hv⟩
    exact ⟨v, by rw [hversion hleaves hrest, hv]⟩
  · rintro ⟨v, hv⟩
    obtain ⟨rest, hleaves⟩ := exists_leaves piece
    have hrest : rest ≠ [] := by
      rintro rfl
      exact hcomplete (isIncomplete_of_leaves_nil hleaves)
    refine ⟨fun hblank => hcomplete (.inl hblank), rest, v, hleaves, hrest, ?_⟩
    rw [← hversion hleaves hrest, hv]

theorem exists_parsePiece_of_isReadable (h : IsReadable piece) : ∃ c, parsePiece piece = .ok c := by
  obtain ⟨-, rest, -, hleaves, hrest, -⟩ := h
  obtain ⟨c, hc, -⟩ := exists_parsePiece_of_leaves hleaves hrest
  exact ⟨c, hc⟩

end Constraint

/-! ### Lists of pieces -/

namespace Range

open Constraint

variable {pieces : List (List Char)} {text body : String}

theorem run_resolve (c : Constraint) :
    c.resolve.run = (c.operator, ·) <$> Version.parse c.version := by
  rw [Constraint.resolve, Lookup.run_bind, Lookup.run_version, String.ofList_toList]
  rfl

theorem exists_version_of_run_resolve {c : Constraint} {e : FormatError}
    (h : c.resolve.run = .error e) : ∃ version, e = .version version := by
  rw [run_resolve] at h
  cases hv : Version.parse c.version with
  | ok v =>
    rw [hv] at h
    cases h
  | error e' =>
    rw [hv] at h
    obtain rfl := Except.error.inj h
    exact ⟨_, Version.eq_of_parse_eq_error hv⟩

theorem run_ofPieces (pieces : List (List Char)) : (ofPieces pieces).run =
    pieces.mapM parsePiece >>= fun constraints => (build constraints).run := by
  rw [ofPieces, Lookup.run_bind, Lookup.run_ofExcept]

/-- Once all constraints are read, their versions are. -/
theorem run_ofPieces_of_parsePiece {constraints : List Constraint}
    (h : pieces.mapM parsePiece = .ok constraints) : (ofPieces pieces).run =
      ofConstraints <$> constraints.mapM fun c => c.resolve.run := by
  rw [run_ofPieces, h, ← Lookup.run_mapM]
  exact Lookup.run_bind (constraints.mapM Constraint.resolve) fun cs => pure (ofConstraints cs)

theorem exists_run_ofPieces_of_isReadable (h : ∀ piece ∈ pieces, IsReadable piece) :
    ∃ r, (ofPieces pieces).run = .ok r := by
  obtain ⟨constraints, hparse⟩ :=
    exists_mapM_eq_ok fun piece hp => exists_parsePiece_of_isReadable (h piece hp)
  have hresolve : ∀ c ∈ constraints, ∃ resolved, c.resolve.run = .ok resolved := by
    intro c hc
    obtain ⟨piece, hp, hpiece⟩ := exists_left_of_forall₂ (mapM_eq_ok_iff.mp hparse) hc
    obtain ⟨v, hv⟩ := (isReadable_iff_of_parsePiece hpiece).mp (h piece hp)
    exact ⟨(c.operator, v), by rw [run_resolve, hv]; rfl⟩
  obtain ⟨resolved, hresolved⟩ := exists_mapM_eq_ok hresolve
  exact ⟨ofConstraints resolved, by rw [run_ofPieces_of_parsePiece hparse, hresolved]; rfl⟩

theorem exists_run_ofPieces_of_isIncomplete (h : ∃ piece ∈ pieces, IsIncomplete piece) :
    ∃ fault, (ofPieces pieces).run = .error (.constraint fault) := by
  obtain ⟨piece, hp, hincomplete⟩ := h
  obtain ⟨fault, hpiece⟩ := exists_parsePiece_of_isIncomplete hincomplete
  have hfault : ∀ piece ∈ pieces, ∀ e, parsePiece piece = .error e →
      ∃ fault, e = .constraint fault := fun _ _ _ => exists_fault_of_parsePiece
  obtain ⟨_, hparse, fault, rfl⟩ := exists_mapM_eq_error hfault ⟨piece, hp, _, hpiece⟩
  exact ⟨fault, by rw [run_ofPieces, hparse]; rfl⟩

theorem exists_run_ofPieces_of_not_isReadable (hcomplete : ∀ piece ∈ pieces, ¬IsIncomplete piece)
    (h : ∃ piece ∈ pieces, ¬IsReadable piece) :
    ∃ version, (ofPieces pieces).run = .error (.version version) := by
  obtain ⟨constraints, hparse⟩ :=
    exists_mapM_eq_ok fun piece hp => exists_parsePiece_of_not_isIncomplete (hcomplete piece hp)
  obtain ⟨piece, hp, hunreadable⟩ := h
  obtain ⟨c, hc, hpiece⟩ := exists_left_of_forall₂ (mapM_eq_ok_iff.mp hparse).flip hp
  have herror : ∃ e, c.resolve.run = .error e := by
    cases hv : Version.parse c.version with
    | ok v => exact absurd ((isReadable_iff_of_parsePiece hpiece).mpr ⟨v, hv⟩) hunreadable
    | error e => exact ⟨e, by rw [run_resolve, hv]; rfl⟩
  have hversion : ∀ c ∈ constraints, ∀ e, c.resolve.run = .error e →
      ∃ version, e = .version version := fun _ _ _ => exists_version_of_run_resolve
  obtain ⟨_, hresolve, version, rfl⟩ := exists_mapM_eq_error hversion ⟨c, hc, herror⟩
  exact ⟨version, by rw [run_ofPieces_of_parsePiece hparse, hresolve]; rfl⟩

/-! ### Whole texts -/

/-- The text is `vers:`, a scheme, a slash and the body. -/
def HasForm (text body : String) : Prop :=
  ∃ scheme : String, scheme ≠ "" ∧ '/' ∉ scheme.toList ∧ text = "vers:" ++ scheme ++ "/" ++ body

theorem parseUri_of_hasForm (h : HasForm text body) :
    parseUri text = if body = "" then pure empty else if body = "*" then pure unbounded
      else ofConstraintList body.toList := by
  obtain ⟨scheme, hscheme, hslash, rfl⟩ := h
  have htext : ("vers:" ++ scheme ++ "/" ++ body).toList =
      uriStart.toList ++ scheme.toList ++ '/' :: body.toList := by
    simp [uriStart]
  rw [parseUri_eq hscheme hslash htext]
  congr 1
  · simp
  · congr 1
    rw [beq_iff_eq, ← String.toList_inj]
    rfl

theorem parseUri_of_not_hasForm (hall : text ≠ "*") (h : ∀ body, ¬HasForm text body) :
    parseUri text = .fail (.uri text) := by
  rw [parseUri, if_neg (by simpa using hall)]
  split
  next first scheme body hcut =>
    obtain ⟨rest, hdrop, hcut⟩ := Option.map_eq_some_iff.mp hcut
    have htext := Text.dropStart?_eq_some_iff.mp hdrop
    obtain ⟨hrest, hslash⟩ := Text.eq_append_of_cutAt hcut
    refine absurd ⟨String.ofList (first :: scheme), ?_, ?_, ?_⟩ (h (String.ofList body))
    · simp [← String.toList_inj]
    · rwa [String.toList_ofList]
    · rw [← String.toList_inj, htext, hrest]
      simp [uriStart]
  next => rfl

/-- The text stands for all versions, or it has the form of a URI and its body stands for no
versions or for all, or is a list of readable pieces. -/
def IsUri (text : String) : Prop :=
  text = "*" ∨ ∃ body, HasForm text body ∧
    (body = "" ∨ body = "*" ∨ ∀ piece ∈ body.toList.splitOn '|', IsReadable piece)

/-- The text has the form of a URI and its body is a list with the given pieces. -/
def HasPieces (text : String) (pieces : List (List Char)) : Prop :=
  ∃ body, HasForm text body ∧ body ≠ "" ∧ body ≠ "*" ∧ pieces = body.toList.splitOn '|'

theorem parseUri_of_hasPieces (h : HasPieces text pieces) : parseUri text = ofPieces pieces := by
  obtain ⟨body, hform, hempty, hall, rfl⟩ := h
  rw [parseUri_of_hasForm hform, if_neg hempty, if_neg hall, ofConstraintList]

/-- What an outcome is the error of, if it is one. -/
def refusal? : Except FormatError Range → Option FormatError.Kind
  | .ok _ => none
  | .error e => some e.kind

theorem refusal?_eq_none_iff {outcome : Except FormatError Range} :
    refusal? outcome = none ↔ ∃ r, outcome = .ok r := by
  cases outcome <;> simp [refusal?]

theorem refusal?_eq_some_iff {outcome : Except FormatError Range} {kind : FormatError.Kind} :
    refusal? outcome = some kind ↔ ∃ e, outcome = .error e ∧ e.kind = kind := by
  cases outcome <;> simp [refusal?]

/-- What becomes of a text: the first of these that fits. -/
inductive Verdict (text : String) : Option FormatError.Kind → Prop where
  | accepted (h : IsUri text) : Verdict text none
  | malformed (h : text ≠ "*" ∧ ∀ body, ¬HasForm text body) : Verdict text (some .range)
  | incomplete (h : ∃ pieces, HasPieces text pieces ∧ ∃ piece ∈ pieces, IsIncomplete piece) :
      Verdict text (some .constraint)
  | unreadable (h : ∃ pieces, HasPieces text pieces ∧ (∀ piece ∈ pieces, ¬IsIncomplete piece) ∧
      ∃ piece ∈ pieces, ¬IsReadable piece) : Verdict text (some .version)

theorem exists_run_parseUri_of_isUri (h : IsUri text) : ∃ r, (parseUri text).run = .ok r := by
  obtain rfl | ⟨body, hform, hbody⟩ := h
  · exact ⟨unbounded, rfl⟩
  · by_cases hempty : body = ""
    · exact ⟨empty, by rw [parseUri_of_hasForm hform, if_pos hempty]; rfl⟩
    · by_cases hall : body = "*"
      · exact ⟨unbounded, by rw [parseUri_of_hasForm hform, if_neg hempty, if_pos hall]; rfl⟩
      · rw [parseUri_of_hasPieces ⟨body, hform, hempty, hall, rfl⟩]
        exact exists_run_ofPieces_of_isReadable ((hbody.resolve_left hempty).resolve_left hall)

theorem refusal?_of_verdict {kind : Option FormatError.Kind} (h : Verdict text kind) :
    refusal? (parseUri text).run = kind := by
  cases h with
  | accepted h => exact refusal?_eq_none_iff.mpr (exists_run_parseUri_of_isUri h)
  | malformed h =>
    rw [parseUri_of_not_hasForm h.1 h.2]
    rfl
  | incomplete h =>
    obtain ⟨pieces, hpieces, h⟩ := h
    obtain ⟨fault, hrun⟩ := exists_run_ofPieces_of_isIncomplete h
    rw [parseUri_of_hasPieces hpieces, hrun]
    rfl
  | unreadable h =>
    obtain ⟨pieces, hpieces, hcomplete, h⟩ := h
    obtain ⟨version, hrun⟩ := exists_run_ofPieces_of_not_isReadable hcomplete h
    rw [parseUri_of_hasPieces hpieces, hrun]
    rfl

theorem exists_verdict (text : String) : ∃ kind, Verdict text kind := by
  by_cases hall : text = "*"
  · exact ⟨_, .accepted (.inl hall)⟩
  by_cases hform : ∃ body, HasForm text body
  · obtain ⟨body, hform⟩ := hform
    by_cases hbody : body = "" ∨ body = "*"
    · exact ⟨_, .accepted (.inr ⟨body, hform, hbody.imp_right .inl⟩)⟩
    · obtain ⟨hempty, hstar⟩ := not_or.mp hbody
      have hpieces : HasPieces text (body.toList.splitOn '|') :=
        ⟨body, hform, hempty, hstar, rfl⟩
      by_cases hincomplete : ∃ piece ∈ body.toList.splitOn '|', IsIncomplete piece
      · exact ⟨_, .incomplete ⟨_, hpieces, hincomplete⟩⟩
      by_cases hreadable : ∀ piece ∈ body.toList.splitOn '|', IsReadable piece
      · exact ⟨_, .accepted (.inr ⟨body, hform, .inr (.inr hreadable)⟩)⟩
      · push Not at hincomplete hreadable
        exact ⟨_, .unreadable ⟨_, hpieces, hincomplete, hreadable⟩⟩
  · exact ⟨_, .malformed ⟨hall, not_exists.mp hform⟩⟩

/-- There is a verdict on each text, and it is borne out; so no second one can be. -/
theorem refusal?_eq_iff_verdict {kind : Option FormatError.Kind} :
    refusal? (parseUri text).run = kind ↔ Verdict text kind := by
  refine ⟨fun h => ?_, refusal?_of_verdict⟩
  obtain ⟨kind', hverdict⟩ := exists_verdict text
  rwa [← h, refusal?_of_verdict hverdict]

/-- A text is read just if it is a URI.  Otherwise the error is about the range if the text has not
the form of a URI; else about a constraint if any piece is blank or only an operator; else about a
version. -/
theorem parseUri_outcome (text : String) :
    ((∃ r, (parseUri text).run = .ok r) ↔ IsUri text) ∧
    ((∃ e, (parseUri text).run = .error e ∧ e.kind = .range) ↔
      text ≠ "*" ∧ ∀ body, ¬HasForm text body) ∧
    ((∃ e, (parseUri text).run = .error e ∧ e.kind = .constraint) ↔
      ∃ pieces, HasPieces text pieces ∧ ∃ piece ∈ pieces, IsIncomplete piece) ∧
    ((∃ e, (parseUri text).run = .error e ∧ e.kind = .version) ↔
      ∃ pieces, HasPieces text pieces ∧ (∀ piece ∈ pieces, ¬IsIncomplete piece) ∧
        ∃ piece ∈ pieces, ¬IsReadable piece) := by
  simp only [← refusal?_eq_none_iff, ← refusal?_eq_some_iff, refusal?_eq_iff_verdict]
  refine ⟨⟨?_, .accepted⟩, ⟨?_, .malformed⟩, ⟨?_, .incomplete⟩, ⟨?_, .unreadable⟩⟩
  · intro h
    cases h with
    | accepted h => exact h
  · intro h
    cases h with
    | malformed h => exact h
  · intro h
    cases h with
    | incomplete h => exact h
  · intro h
    cases h with
    | unreadable h => exact h

example : (parseUri "vers:npm/x|>= ").run = .error (.constraint (.noVersion ">=")) := by
  decide +kernel

end Range

end Versioning
