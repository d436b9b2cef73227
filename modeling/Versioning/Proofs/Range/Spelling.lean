import Versioning.Proofs.Lookup
import Versioning.Proofs.Range.Constraints
import Versioning.Proofs.Text
import Versioning.Proofs.Version.Reader

/-! Constraints in their texts.  A constraint is written as its operator and the text of its
version, and read by taking the longest operator off.  A text that shows a version starts with a
digit and has no blank, so that what was written is read again; and lists of such texts come apart
again at the bars between them, unless a version itself is spelled with a bar. -/

namespace Versioning

/-- The version is what its text shows, and the text can stand between bars. -/
structure Version.IsListable (v : Version) : Prop where
  shown : v.IsShown
  bar : '|' ∉ v.text.toList

namespace Operator

variable {op : Operator} {rest text : List Char}

/-- Only an operator of one character goes on with an equals sign, and none with anything else. -/
theorem split?_append (h : op.symbol.toList.length = 2 ∨ rest.head? ≠ some '=') :
    split? (op.symbol.toList ++ rest) = some (op, rest) := by
  rcases h with h | h
  · cases op <;> first | contradiction | simp [split?, all, symbol, Text.dropStart?]
  · have hnone := Text.dropStart?_singleton_eq_none h
    cases op <;> simp [split?, all, symbol, Text.dropStart?, hnone]

theorem isBlank_symbol : op.symbol.toList.any Text.isBlank = false := by
  cases op <;> decide

theorem bar_not_mem_symbol : '|' ∉ op.symbol.toList := by
  cases op <;> decide

theorem symbol_ne_empty : op.symbol ≠ "" := by
  cases op <;> decide

theorem eq_append_of_split? (h : split? text = some (op, rest)) :
    text = op.symbol.toList ++ rest := by
  obtain ⟨op', _, h⟩ := List.exists_of_findSome?_eq_some h
  obtain ⟨rest', h, heq⟩ := Option.map_eq_some_iff.mp h
  cases heq
  exact Text.dropStart?_eq_some_iff.mp h

end Operator

namespace Constraint

variable {op : Operator} {v : Version} {c : Constraint} {text : String} {piece : List Char}

/-- The constraint that compares with the text of the version. -/
def ofResolved (c : Operator × Version) : Constraint := ⟨c.1, c.2.text⟩

theorem render_ofResolved : (ofResolved (op, v)).render.toList =
    op.symbol.toList ++ v.text.toList := by
  simp [ofResolved, render]

theorem isBlank_render (op : Operator) (h : v.IsShown) :
    (ofResolved (op, v)).render.toList.any Text.isBlank = false := by
  rw [render_ofResolved, List.any_append, Operator.isBlank_symbol, h.not_isBlank, Bool.or_self]

/-- A constraint on a version that is shown is read again. -/
theorem parse_render (h : v.IsShown) :
    parse (ofResolved (op, v)).render = .ok (ofResolved (op, v)) := by
  obtain ⟨first, rest, htext, hfirst⟩ := h.exists_decimal
  have hstrip : Text.strip (first :: rest) = first :: rest :=
    Text.strip_eq_self (htext ▸ h.not_isBlank)
  have hequals : (first :: rest).head? ≠ some '=' := by
    rintro ⟨⟩
    contradiction
  rw [parse, render_ofResolved, htext, Operator.split?_append (.inr hequals)]
  simp only [hstrip, List.isEmpty_cons, Bool.false_eq_true, if_false]
  rw [← htext, String.ofList_toList]
  rfl

theorem parsePiece_render (h : v.IsShown) :
    parsePiece (ofResolved (op, v)).render.toList = .ok (ofResolved (op, v)) := by
  have hstrip := Text.strip_eq_self (isBlank_render op h)
  have hne : (ofResolved (op, v)).render.toList.isEmpty = false := by
    simp [render_ofResolved, Operator.symbol_ne_empty]
  rw [parsePiece, hstrip]
  simp only [hne, Bool.false_eq_true, if_false]
  rw [String.ofList_toList, parse_render h]

theorem version_subset_of_parse (h : parse text = .ok c) : c.version.toList ⊆ text.toList := by
  unfold parse at h
  split at h
  next op rest hs =>
    dsimp only at h
    split at h
    · cases h
    · cases h
      rw [String.toList_ofList, Operator.eq_append_of_split? hs]
      exact List.Subset.trans (Text.strip_subset rest) (List.subset_append_right _ _)
  next =>
    cases h
    exact List.Subset.refl _

theorem version_subset_of_parsePiece (h : parsePiece piece = .ok c) :
    c.version.toList ⊆ piece := by
  unfold parsePiece at h
  dsimp only at h
  split at h
  · cases h
  · have hsub := version_subset_of_parse h
    rw [String.toList_ofList] at hsub
    exact List.Subset.trans hsub (Text.strip_subset piece)

end Constraint

namespace Range

open Lookup

variable {P : Version → Prop} {cs : List (Operator × Version)} {text : List Char}

/-! ### Lists that were written -/

/-- The constraints between bars. -/
def listText (cs : List (Operator × Version)) : String :=
  "|".intercalate ((cs.map Constraint.ofResolved).map Constraint.render)

theorem splitOn_listText (h : ∀ c ∈ cs, c.2.IsListable) (hne : cs ≠ []) :
    (listText cs).toList.splitOn '|' = cs.map fun c => (Constraint.ofResolved c).render.toList := by
  have hbar : ∀ piece ∈ cs.map (fun c => (Constraint.ofResolved c).render.toList), '|' ∉ piece := by
    intro piece hp
    obtain ⟨⟨op, v⟩, hc, rfl⟩ := List.mem_map.mp hp
    rw [Constraint.render_ofResolved, List.mem_append, not_or]
    exact ⟨Operator.bar_not_mem_symbol, (h _ hc).bar⟩
  have hlist : (listText cs).toList =
      ['|'].intercalate (cs.map fun c => (Constraint.ofResolved c).render.toList) := by
    rw [listText, String.toList_intercalate]
    simp [Function.comp_def]
  rw [hlist, List.splitOn_intercalate _ hbar (by simpa using hne)]

/-- A list of constraints on versions that can stand between bars is read again. -/
theorem run_ofConstraintList_listText (h : ∀ c ∈ cs, c.2.IsListable) (hne : cs ≠ []) :
    (ofConstraintList (listText cs).toList).run = .ok (ofConstraints cs) := by
  have hparse : (cs.map fun c => (Constraint.ofResolved c).render.toList).mapM
      Constraint.parsePiece = .ok (cs.map Constraint.ofResolved) := by
    rw [mapM_eq_ok_iff, List.forall₂_map_left_iff, List.forall₂_map_right_iff, List.forall₂_same]
    exact fun c hc => Constraint.parsePiece_render (h c hc).shown
  have hresolves : List.Forall₂ Resolves (cs.map Constraint.ofResolved) cs := by
    rw [List.forall₂_map_left_iff, List.forall₂_same]
    exact fun c hc => ⟨rfl, (h c hc).shown⟩
  rw [ofConstraintList, splitOn_listText h hne, ofPieces, hparse]
  exact run_build_eq_ok_iff.mpr ⟨cs, hresolves, rfl⟩

/-! ### Lists that were read -/

theorem yields_build (constraints : List Constraint) : (build constraints).Yields P fun r =>
    ∃ cs : List (Operator × Version), (∀ c ∈ cs, P c.2) ∧ List.Forall₂ Resolves constraints cs ∧
      ofConstraints cs = r := by
  have hresolve : ∀ d ∈ constraints, d.resolve.Yields P fun c => P c.2 := fun d _ =>
    (Yields.version d.version.toList).bind fun v hv => .pure hv
  refine (Yields.mapM hresolve).and_run.bind fun cs ⟨hcs, hrun⟩ => .pure ⟨cs, hcs, ?_, rfl⟩
  exact (run_mapM_eq_ok_iff.mp hrun).imp fun _ _ h => run_resolve_eq_ok_iff.mp h

/-- No version of a list between bars is spelled with a bar. -/
theorem yields_ofConstraintList (text : List Char) : (ofConstraintList text).Yields P fun r =>
    ∃ cs : List (Operator × Version),
      (∀ c ∈ cs, P c.2 ∧ '|' ∉ c.2.text.toList) ∧ ofConstraints cs = r := by
  have hpieces (constraints : List Constraint)
      (h : (text.splitOn '|').mapM Constraint.parsePiece = .ok constraints) :
      ∀ d ∈ constraints, '|' ∉ d.version.toList := by
    intro d hd hbar
    obtain ⟨piece, hp, hparse⟩ := exists_left_of_forall₂ (mapM_eq_ok_iff.mp h) hd
    exact (Text.mem_splitOn hp).2 (Constraint.version_subset_of_parsePiece hparse hbar)
  refine (Yields.ofExcept hpieces).bind fun constraints hbar hfound r hr => ?_
  obtain ⟨cs, hcs, hresolves, heq⟩ := yields_build constraints hfound r hr
  refine ⟨cs, fun c hc => ⟨hcs c hc, ?_⟩, heq⟩
  obtain ⟨d, hd, _, hparse⟩ := exists_left_of_forall₂ hresolves hc
  rw [(Version.parse_eq_ok_iff.mp hparse).2]
  exact hbar d hd

end Range

end Versioning
