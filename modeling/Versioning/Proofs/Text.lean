import Mathlib.Data.List.TakeWhile
import Versioning.Text.Blank
import Versioning.Text.Split

/-! Texts that are trimmed, put together and cut apart again: what is left without the blanks around
it, what stands before a mark and behind it, and the pieces between the marks. -/

namespace Versioning.Text

variable {c x : Char} {text piece rest : List Char}

theorem takeWhile_append_cons (p : Char → Bool) (hx : p x = false) :
    (text ++ x :: rest).takeWhile p = text.takeWhile p := by
  induction text with
  | nil => simp [hx]
  | cons y text ih => simp [List.takeWhile_cons, ih]

theorem head?_append_any {p : Char → Bool} (h : text.head?.any p = true) (rest : List Char) :
    (text ++ rest).head?.any p = true := by
  cases text with
  | nil => cases h
  | cons first rest => exact h

/-! ### Trimming -/

theorem strip_eq_self (h : text.any isBlank = false) : strip text = text := by
  have hnone : ∀ c ∈ text, ¬isBlank c = true := List.any_eq_false.mp h
  have hleft : stripLeft text = text := by
    cases text with
    | nil => rfl
    | cons c rest => exact List.dropWhile_cons_of_neg (hnone c (.head rest))
  have hright : text.reverse.dropWhile isBlank = text.reverse := by
    cases hr : text.reverse with
    | nil => rfl
    | cons c rest =>
      have hc : c ∈ text := List.mem_reverse.mp (hr ▸ .head rest)
      exact List.dropWhile_cons_of_neg (hnone c hc)
  rw [strip, stripRight, hleft, hright, List.reverse_reverse]

theorem strip_subset (text : List Char) : strip text ⊆ text := by
  have hright : stripRight (stripLeft text) ⊆ stripLeft text := fun c hc =>
    List.mem_reverse.mp ((List.dropWhile_sublist isBlank).subset (List.mem_reverse.mp hc))
  exact List.Subset.trans hright (List.dropWhile_sublist isBlank).subset

/-- Blanks are all that trimming takes away. -/
theorem strip_eq_nil_iff : strip text = [] ↔ ∀ c ∈ text, isBlank c = true := by
  rw [strip, stripRight, List.reverse_eq_nil_iff, List.dropWhile_eq_nil_iff]
  simp only [List.mem_reverse]
  constructor
  · intro h c hc
    rw [← List.takeWhile_append_dropWhile (p := isBlank) (l := text), List.mem_append] at hc
    rcases hc with hc | hc
    · exact List.mem_takeWhile_imp hc
    · exact h c hc
  · exact fun h c hc => h c ((List.dropWhile_sublist isBlank).subset hc)

theorem mem_strip_iff (hc : isBlank c = false) : c ∈ strip text ↔ c ∈ text := by
  refine iff_of_eq (apply_strip (f := (c ∈ ·)) (fun x text hx => ?_) (fun x text hx => ?_) text)
  · simp [(ne_of_isBlank hx hc).symm]
  · simp [(ne_of_isBlank hx hc).symm]

theorem strip_append_left {before : List Char} (h : strip before = []) :
    strip (before ++ text) = strip text := by
  have hblank := strip_eq_nil_iff.mp h
  clear h
  induction before with
  | nil => rfl
  | cons c before ih =>
    obtain ⟨hc, hbefore⟩ := List.forall_mem_cons.mp hblank
    rw [List.cons_append, strip_cons hc, ih hbefore]

theorem strip_append_of_strip_eq_nil {after : List Char} (h : strip after = []) :
    strip (text ++ after) = strip text := by
  have hblank := strip_eq_nil_iff.mp h
  clear h
  induction after generalizing text with
  | nil => rw [List.append_nil]
  | cons c after ih =>
    obtain ⟨hc, hafter⟩ := List.forall_mem_cons.mp hblank
    rw [List.append_cons, ih hafter, strip_concat hc]

/-- Only the ends of a text are trimmed. -/
theorem strip_cons_append {first : Char} {front : List Char} (hfirst : isBlank first = false)
    (hne : text ≠ []) (htext : text.any isBlank = false) :
    strip (first :: (front ++ text)) = first :: (front ++ text) := by
  obtain ⟨last, rest, hrest⟩ := List.exists_cons_of_ne_nil (mt List.reverse_eq_nil_iff.mp hne)
  have hlast : ¬isBlank last = true :=
    List.any_eq_false.mp htext last (List.mem_reverse.mp (hrest ▸ .head rest))
  have hreverse : (first :: (front ++ text)).reverse =
      last :: (rest ++ (first :: front).reverse) := by
    rw [← List.cons_append, List.reverse_append, hrest, List.cons_append]
  rw [strip, stripLeft, List.dropWhile_cons_of_neg (by simp [hfirst]), stripRight, hreverse,
    List.dropWhile_cons_of_neg hlast, ← hreverse, List.reverse_reverse]

/-- In front of blanks at the end of a text, nothing is trimmed. -/
theorem stripRight_cons (hc : isBlank c = false) (text : List Char) :
    stripRight (c :: text) = c :: stripRight text := by
  have hlast : List.dropWhile isBlank [c] = [c] := List.dropWhile_cons_of_neg (by simp [hc])
  rw [stripRight, stripRight, List.reverse_cons, List.dropWhile_append, hlast]
  split
  next h =>
    rw [List.isEmpty_iff.mp h]
    rfl
  next =>
    rw [List.reverse_append]
    rfl

theorem strip_append {front : List Char} (hne : front ≠ []) (hfront : front.any isBlank = false)
    (text : List Char) : strip (front ++ text) = front ++ stripRight text := by
  have hleft : stripLeft (front ++ text) = front ++ text := by
    obtain ⟨c, rest, rfl⟩ := List.exists_cons_of_ne_nil hne
    exact List.dropWhile_cons_of_neg (List.any_eq_false.mp hfront c (.head rest))
  rw [strip, hleft]
  clear hne hleft
  induction front with
  | nil => rfl
  | cons c rest ih =>
    obtain ⟨hc, hrest⟩ := Bool.or_eq_false_iff.mp (List.any_cons.symm.trans hfront)
    rw [List.cons_append, stripRight_cons hc, ih hrest, List.cons_append]

/-! ### One cut -/

theorem dropStart?_eq_none_iff {start : List Char} :
    dropStart? start text = none ↔ ¬start <+: text := by
  rw [Option.eq_none_iff_forall_ne_some]
  constructor
  · rintro h ⟨rest, hrest⟩
    exact h rest (dropStart?_eq_some_iff.mpr hrest.symm)
  · exact fun h rest hrest => h ⟨rest, (dropStart?_eq_some_iff.mp hrest).symm⟩

theorem dropStart?_singleton_eq_none (h : text.head? ≠ some c) : dropStart? [c] text = none := by
  rw [dropStart?_eq_none_iff]
  rintro ⟨rest, rfl⟩
  exact h rfl

theorem eq_append_of_cutAt {before after : List Char} (h : cutAt c text = (before, some after)) :
    text = before ++ c :: after ∧ c ∉ before := by
  obtain ⟨rfl, hafter⟩ := Prod.mk.inj h
  have hdrop : text.dropWhile (· != c) = c :: after := by
    cases hrest : text.dropWhile (· != c) with
    | nil =>
      rw [hrest] at hafter
      cases hafter
    | cons x rest =>
      have hne : text.dropWhile (· != c) ≠ [] := hrest ▸ List.cons_ne_nil x rest
      have hx := List.head_dropWhile_not (· != c) hne
      simp only [hrest, List.head_cons, bne_eq_false_iff_eq] at hx
      rw [hrest] at hafter
      rw [hx, ← Option.some.inj hafter]
  refine ⟨?_, fun hc => ?_⟩
  · rw [← hdrop, List.takeWhile_append_dropWhile]
  · simpa using List.mem_takeWhile_imp hc

theorem exists_cutAt_of_mem (h : c ∈ text) :
    ∃ suffix, (cutAt c text).2 = some suffix := by
  obtain ⟨before, after, rfl, hc⟩ := List.eq_append_cons_of_mem h
  exact ⟨after, congrArg Prod.snd (cutAt_append hc)⟩

theorem cutAt_of_not_mem (h : c ∉ text) : cutAt c text = (text, none) := by
  have hne := bne_of_not_mem h
  rw [cutAt, List.takeWhile_eq_self_iff.mpr hne, List.dropWhile_eq_nil_iff.mpr hne]
  rfl

theorem cutAt_subset {suffix : List Char} (h : (cutAt c text).2 = some suffix) :
    suffix ⊆ text := by
  have hcut : cutAt c text = ((cutAt c text).1, some suffix) := Prod.ext rfl h
  rw [(eq_append_of_cutAt hcut).1]
  exact List.Subset.trans (List.subset_cons_self c suffix) (List.subset_append_right _ _)

/-! ### All pieces -/

/-- The pieces lie in the text and hold none of the characters at which it is cut. -/
theorem mem_splitOnP {p : Char → Bool} (h : piece ∈ text.splitOnP p) :
    piece <:+: text ∧ ∀ c ∈ piece, p c = false := by
  -- What is put in front of a text goes into its first piece, which has to start the text for that.
  have hpieces : ∃ first rest, text.splitOnP p = first :: rest ∧
      (first <+: text ∧ ∀ c ∈ first, p c = false) ∧
      ∀ piece ∈ rest, piece <:+: text ∧ ∀ c ∈ piece, p c = false := by
    clear h
    induction text with
    | nil => exact ⟨[], [], List.splitOnP_nil, ⟨List.prefix_refl _, by simp⟩, by simp⟩
    | cons x text ih =>
      obtain ⟨first, rest, heq, ⟨hstart, hfirst⟩, hrest⟩ := ih
      have htail : ∀ piece ∈ rest, piece <:+: x :: text ∧ ∀ c ∈ piece, p c = false :=
        fun piece hp => ⟨(hrest piece hp).1.trans (List.suffix_cons x text).isInfix,
          (hrest piece hp).2⟩
      rw [List.splitOnP_cons_eq_if_modifyHead, heq]
      split
      next =>
        refine ⟨[], first :: rest, rfl, ⟨List.nil_prefix, by simp⟩, ?_⟩
        refine List.forall_mem_cons.mpr ⟨⟨?_, hfirst⟩, htail⟩
        exact hstart.isInfix.trans (List.suffix_cons x text).isInfix
      next hx =>
        refine ⟨x :: first, rest, rfl, ⟨List.cons_prefix_cons.mpr ⟨rfl, hstart⟩, ?_⟩, htail⟩
        exact List.forall_mem_cons.mpr ⟨by simpa using hx, hfirst⟩
  obtain ⟨first, rest, heq, ⟨hstart, hfirst⟩, hrest⟩ := hpieces
  rw [heq] at h
  rcases List.mem_cons.mp h with rfl | h
  · exact ⟨hstart.isInfix, hfirst⟩
  · exact hrest piece h

/-- Nothing but the characters at which the text is cut is lost. -/
theorem exists_mem_splitOnP {p : Char → Bool} (hc : c ∈ text) (hp : p c = false) :
    ∃ piece ∈ text.splitOnP p, c ∈ piece := by
  induction text with
  | nil => contradiction
  | cons x text ih =>
    rw [List.splitOnP_cons_eq_if_modifyHead]
    obtain rfl | hc := List.mem_cons.mp hc
    · obtain ⟨first, rest, heq⟩ := List.exists_cons_of_ne_nil (List.splitOnP_ne_nil p text)
      rw [if_neg (by simp [hp]), heq]
      exact ⟨_, .head _, .head _⟩
    · obtain ⟨piece, hpiece, hc⟩ := ih hc
      split
      next => exact ⟨piece, .tail _ hpiece, hc⟩
      next =>
        obtain ⟨first, rest, heq⟩ := List.exists_cons_of_ne_nil (List.ne_nil_of_mem hpiece)
        rw [heq] at hpiece ⊢
        obtain rfl | hpiece := List.mem_cons.mp hpiece
        · exact ⟨_, .head _, .tail _ hc⟩
        · exact ⟨piece, .tail _ hpiece, hc⟩

theorem mem_splitOn (h : piece ∈ text.splitOn c) : piece <:+: text ∧ c ∉ piece := by
  obtain ⟨hwithin, hne⟩ := mem_splitOnP h
  exact ⟨hwithin, fun hc => by simpa using hne c hc⟩

theorem exists_splitOn_of_mem (h : c ∈ text) :
    ∃ first second more, text.splitOn c = first :: second :: more := by
  obtain ⟨before, after, rfl, -⟩ := List.eq_append_cons_of_mem h
  obtain ⟨first, firsts, hfirst⟩ := List.exists_cons_of_ne_nil (List.splitOn_ne_nil c before)
  obtain ⟨last, lasts, hlast⟩ := List.exists_cons_of_ne_nil (List.splitOn_ne_nil c after)
  rw [List.splitOn_append_cons_self, hfirst, hlast]
  cases firsts with
  | nil => exact ⟨first, last, lasts, rfl⟩
  | cons second rest => exact ⟨first, second, rest ++ last :: lasts, rfl⟩

theorem eq_append_of_splitOn {first second : List Char} {more : List (List Char)}
    (h : text.splitOn c = first :: second :: more) :
    text = first ++ c :: [c].intercalate (second :: more) := by
  have hjoin : [c].intercalate (text.splitOn c) = text := List.intercalate_splitOn c
  rw [h] at hjoin
  rw [← hjoin]
  cases more <;> simp [List.intercalate]

/-- What is put behind a text goes on with its last piece. -/
theorem exists_splitOn_append (c : Char) (text : List Char) :
    ∃ pieces last, ∀ rest : List Char,
      (text ++ rest).splitOn c = pieces ++ (rest.splitOn c).modifyHead (last ++ ·) := by
  induction text with
  | nil => exact ⟨[], [], fun rest => List.modifyHead_id.symm ▸ rfl⟩
  | cons y text ih =>
    obtain ⟨pieces, last, ih⟩ := ih
    by_cases hy : (y == c) = true
    · refine ⟨[] :: pieces, last, fun rest => ?_⟩
      rw [List.cons_append, List.splitOn_cons_eq_if_modifyHead, if_pos hy, ih, List.cons_append]
    · cases pieces with
      | nil =>
        refine ⟨[], y :: last, fun rest => ?_⟩
        rw [List.cons_append, List.splitOn_cons_eq_if_modifyHead, if_neg hy, ih, List.nil_append,
          List.modifyHead_modifyHead]
        rfl
      | cons piece pieces =>
        refine ⟨(y :: piece) :: pieces, last, fun rest => ?_⟩
        rw [List.cons_append, List.splitOn_cons_eq_if_modifyHead, if_neg hy, ih]
        rfl

theorem exists_splitOn_append_cons (hx : x ≠ c) (text : List Char) :
    ∃ pieces last, text.splitOn c = pieces ++ [last] ∧ ∀ rest first more,
      rest.splitOn c = first :: more →
        (text ++ x :: rest).splitOn c = pieces ++ (last ++ x :: first) :: more := by
  obtain ⟨pieces, last, happend⟩ := exists_splitOn_append c text
  refine ⟨pieces, last, by simpa using happend [], fun rest first more hrest => ?_⟩
  have hcons : (x :: rest).splitOn c = (x :: first) :: more := by
    rw [List.splitOn_cons_eq_if_modifyHead, if_neg (by simpa using hx), hrest]
    rfl
  rw [happend, hcons]
  rfl

theorem splitOn_append_of_not_mem {first : List Char} {more : List (List Char)}
    (h : c ∉ piece) (hrest : rest.splitOn c = first :: more) :
    (piece ++ rest).splitOn c = (piece ++ first) :: more := by
  obtain ⟨pieces, last, happend⟩ := exists_splitOn_append c piece
  have hlast : [piece] = pieces ++ [last] := by
    simpa [List.splitOn_eq_singleton h] using happend []
  cases pieces with
  | nil =>
    obtain rfl := (List.cons.inj hlast).1
    rw [happend, hrest]
    rfl
  | cons first rest => simp at hlast

theorem intercalate_append (c : Char) (pieces : List (List Char)) (last first : List Char)
    (more : List (List Char)) : [c].intercalate (pieces ++ (last ++ first) :: more) =
      [c].intercalate (pieces ++ [last]) ++ [c].intercalate (first :: more) := by
  induction pieces with
  | nil => cases more <;> simp [List.intercalate]
  | cons piece pieces ih =>
    have hcons (rest : List (List Char)) (hne : rest ≠ []) :
        [c].intercalate (piece :: rest) = piece ++ c :: [c].intercalate rest := by
      obtain ⟨x, xs, rfl⟩ := List.exists_cons_of_ne_nil hne
      simp [List.intercalate]
    rw [List.cons_append, List.cons_append, hcons _ (by simp), hcons _ (by simp), ih]
    simp

theorem forall_mem_intercalate {P : Char → Prop} {pieces : List (List Char)} (hc : P c)
    (h : ∀ piece ∈ pieces, ∀ x ∈ piece, P x) : ∀ x ∈ [c].intercalate pieces, P x := by
  induction pieces with
  | nil => exact List.forall_mem_nil _
  | cons piece rest ih =>
    obtain ⟨hpiece, hrest⟩ := List.forall_mem_cons.mp h
    cases rest with
    | nil => simpa [List.intercalate] using hpiece
    | cons second rest =>
      rw [List.intercalate_cons_cons, List.append_assoc]
      exact List.forall_mem_append.mpr ⟨hpiece, List.forall_mem_cons.mpr ⟨hc, ih hrest⟩⟩

theorem suffix_intercalate_cons (c : Char) (piece : List Char) (pieces : List (List Char)) :
    [c].intercalate pieces <:+ [c].intercalate (piece :: pieces) := by
  cases pieces with
  | nil => exact List.nil_suffix
  | cons second rest => exact ⟨piece ++ [c], by simp [List.intercalate]⟩

theorem prefix_intercalate_cons (c : Char) (piece : List Char) (pieces : List (List Char)) :
    piece <+: [c].intercalate (piece :: pieces) := by
  cases pieces <;> simp [List.intercalate]

/-! ### Pairs of separators -/

theorem not_pair_infix_cons (hx : x ≠ c) (h : ¬[c, c] <:+: text) : ¬[c, c] <:+: x :: text := by
  rw [List.infix_cons_iff, not_or]
  exact ⟨fun hpair => hx (List.cons_prefix_cons.mp hpair).1.symm, h⟩

theorem not_pair_infix_append (hpiece : c ∉ piece) (h : ¬[c, c] <:+: rest) :
    ¬[c, c] <:+: piece ++ rest := by
  induction piece with
  | nil => exact h
  | cons y piece ih =>
    rw [List.mem_cons, not_or] at hpiece
    exact not_pair_infix_cons (Ne.symm hpiece.1) (ih hpiece.2)

/-- No pair goes across another character. -/
theorem not_pair_infix_append_cons (hx : x ≠ c) (htext : ¬[c, c] <:+: text)
    (hrest : ¬[c, c] <:+: rest) : ¬[c, c] <:+: text ++ x :: rest := by
  induction text with
  | nil => exact not_pair_infix_cons hx hrest
  | cons y text ih =>
    rw [List.infix_cons_iff, not_or] at htext
    rw [List.cons_append, List.infix_cons_iff, not_or]
    refine ⟨fun hpair => htext.1 ?_, ih htext.2⟩
    cases text with
    | nil =>
      obtain ⟨-, hnext⟩ := List.cons_prefix_cons.mp hpair
      exact absurd (List.cons_prefix_cons.mp hnext).1.symm hx
    | cons z text => simpa using hpair

end Versioning.Text
