import Mathlib.Data.Prod.Lex
import Mathlib.Data.List.Lex
import Mathlib.Order.Compare
import Mathlib.Order.WithBot
import Versioning.Version.Order

/-! Places of versions in a linear order.  The comparison of identifiers is not transitive when
numbers and words that begin with a digit meet: `2 < 10 < 1a < 2`.  Without such words it is that of
the places: `compares_place` says that two ordered versions compare as their places do, so that they
are in a total preorder (`compare_preorder`). -/

namespace Versioning

namespace Identifier

/-- A number, or a word that does not begin with a digit. -/
def IsOrdered (a : Identifier) : Prop := Text.isNumeric a = true ∨ a.head?.any Char.isDigit = false

instance (a : Identifier) : Decidable a.IsOrdered := inferInstanceAs (Decidable (_ ∨ _))

/-- A number stands where the words that begin with a digit would, by its value; a word stands where
its characters put it. -/
def place (a : Identifier) : List ℕ :=
  if Text.isNumeric a then ['0'.toNat, Text.numeral a] else a.map Char.toNat

end Identifier

/-- The release, then the places of the identifiers; a version that is no prerelease comes last. -/
def Place : Type := (ℤ ×ₗ ℤ ×ₗ ℤ) ×ₗ WithTop (List (List ℕ))

instance : LinearOrder Place :=
  inferInstanceAs (LinearOrder ((ℤ ×ₗ ℤ ×ₗ ℤ) ×ₗ WithTop (List (List ℕ))))

def Release.place (r : Release) : ℤ ×ₗ ℤ ×ₗ ℤ := toLex (r.major, toLex (r.minor, r.patch))

/-- The places of the identifiers, or the last place of all. -/
def prereleasePlace : Option (List Identifier) → WithTop (List (List ℕ))
  | none => ⊤
  | some identifiers => (identifiers.map Identifier.place : List (List ℕ))

namespace Version

/-- A version whose identifiers are numbers and words that do not begin with a digit. -/
def IsOrdered (v : Version) : Prop := ∀ identifiers ∈ v.identifiers, ∀ a ∈ identifiers, a.IsOrdered

instance (v : Version) : Decidable v.IsOrdered :=
  inferInstanceAs (Decidable (∀ identifiers ∈ v.identifiers, ∀ a ∈ identifiers, a.IsOrdered))

/-- Where the version stands among the ordered ones. -/
def place (v : Version) : Place := toLex (v.release.place, prereleasePlace v.identifiers)

end Version

/-! ### Comparisons that agree with an order -/

section Compares

open Ordering

variable {α β : Type}

theorem compares_compare [LinearOrder α] (a b : α) : (compare a b).Compares a b := by
  rw [← cmp_eq_compare]
  exact cmp_compares a b

theorem compares_then [LinearOrder α] [LinearOrder β] {o o' : Ordering} {a b : α} {c d : β}
    (h : o.Compares a b) (h' : o'.Compares c d) :
    (o.then o').Compares (toLex (a, c)) (toLex (b, d)) := by
  cases o with
  | lt => exact Prod.Lex.toLex_lt_toLex.mpr (.inl h)
  | gt => exact Prod.Lex.toLex_lt_toLex.mpr (.inl h)
  | eq =>
    obtain rfl : a = b := h
    cases o' with
    | lt => exact Prod.Lex.toLex_lt_toLex.mpr (.inr ⟨rfl, h'⟩)
    | gt => exact Prod.Lex.toLex_lt_toLex.mpr (.inr ⟨rfl, h'⟩)
    | eq => exact congrArg (fun x => toLex (a, x)) h'

theorem compares_coe [LinearOrder α] {o : Ordering} {a b : α} (h : o.Compares a b) :
    o.Compares (a : WithTop α) (b : WithTop α) := by
  cases o with
  | lt => exact WithTop.coe_lt_coe.mpr h
  | eq => exact congrArg WithTop.some h
  | gt => exact WithTop.coe_lt_coe.mpr h

theorem compares_map [LinearOrder β] {cmp : α → α → Ordering} {f : α → β} {as bs : List α}
    (h : ∀ a ∈ as, ∀ b ∈ bs, (cmp a b).Compares (f a) (f b)) :
    (List.compareLex cmp as bs).Compares (as.map f) (bs.map f) := by
  induction as generalizing bs with
  | nil =>
    cases bs with
    | nil => rfl
    | cons b bs => exact List.nil_lt_cons _ _
  | cons a as ih =>
    cases bs with
    | nil => exact List.nil_lt_cons _ _
    | cons b bs =>
      have hab := h a (.head as) b (.head bs)
      have hrest := ih fun x hx y hy => h x (.tail a hx) y (.tail b hy)
      rw [List.compareLex_cons_cons, List.map_cons, List.map_cons]
      -- The rests count only where the heads have the same place.
      cases hc : cmp a b <;> rw [hc] at hab
      · exact List.cons_lt_cons_iff.mpr (.inl hab)
      · obtain hab : f a = f b := hab
        rw [hab]
        revert hrest
        cases List.compareLex cmp as bs with
        | lt => exact fun h => List.cons_lt_cons_iff.mpr (.inr ⟨rfl, h⟩)
        | eq => exact fun h => congrArg (f b :: ·) h
        | gt => exact fun h => List.cons_lt_cons_iff.mpr (.inr ⟨rfl, h⟩)
      · exact List.cons_lt_cons_iff.mpr (.inl hab)

end Compares

/-! ### Versions -/

namespace Identifier

variable {a b : Identifier}

theorem compares_toNat (c d : Char) : (Ord.compare c d).Compares c.toNat d.toNat := by
  change (compareOfLessAndEq c d).Compares c.toNat d.toNat
  unfold compareOfLessAndEq
  split
  next h => exact h
  next h =>
    split
    next he => exact congrArg Char.toNat he
    next he =>
      have hne : c.toNat ≠ d.toNat := fun h => he (Char.toNat_inj.mp h)
      have hle : d.toNat ≤ c.toNat := Char.not_lt.mp h
      exact lt_of_le_of_ne hle hne.symm

theorem exists_digit_of_isNumeric (h : Text.isNumeric a = true) :
    ∃ c rest, a = c :: rest ∧ c.isDigit = true := by
  cases a with
  | nil => simp [Text.isNumeric] at h
  | cons c rest =>
    simp only [Text.isNumeric, List.all_cons, Bool.and_eq_true] at h
    exact ⟨c, rest, rfl, h.2.1⟩

/-- A number and a word differ in their first characters, if the word does not begin with a digit;
all digits are on the same side of that of the word. -/
theorem compares_number_word (ha : Text.isNumeric a = true) (hb : b.head?.any Char.isDigit = false)
    (value : ℕ) : (Ord.compare a b).Compares ['0'.toNat, value] (b.map Char.toNat) := by
  obtain ⟨c, rest, rfl, hc⟩ := exists_digit_of_isNumeric ha
  have hc := Char.isDigit_iff_toNat.mp hc
  cases b with
  | nil => exact List.nil_lt_cons _ _
  | cons d bs =>
    have hd : ¬('0'.toNat ≤ d.toNat ∧ d.toNat ≤ '9'.toNat) := by
      rw [← Char.isDigit_iff_toNat]
      simpa using hb
    have hcd := compares_toNat c d
    rw [List.compare_cons_cons, List.map_cons]
    cases h : Ord.compare c d <;> rw [h] at hcd
    · have hlt : c.toNat < d.toNat := hcd
      exact List.cons_lt_cons_iff.mpr (.inl (by omega))
    · have heq : c.toNat = d.toNat := hcd
      omega
    · have hgt : d.toNat < c.toNat := hcd
      exact List.cons_lt_cons_iff.mpr (.inl (by omega))

theorem compares_numbers (m n : ℕ) :
    (Ord.compare m n).Compares ['0'.toNat, m] ['0'.toNat, n] := by
  have h := compares_compare m n
  revert h
  cases Ord.compare m n with
  | lt => exact fun h => List.cons_lt_cons_iff.mpr (.inr ⟨rfl, List.cons_lt_cons_iff.mpr (.inl h)⟩)
  | eq => exact congrArg (['0'.toNat, ·])
  | gt => exact fun h => List.cons_lt_cons_iff.mpr (.inr ⟨rfl, List.cons_lt_cons_iff.mpr (.inl h)⟩)

theorem compares_place (ha : a.IsOrdered) (hb : b.IsOrdered) :
    (a.compare b).Compares a.place b.place := by
  unfold Identifier.compare place
  by_cases hna : Text.isNumeric a = true <;> by_cases hnb : Text.isNumeric b = true <;>
    simp only [hna, hnb, Bool.and_self, Bool.and_false, Bool.false_and, Bool.false_eq_true, if_true,
      if_false]
  · exact compares_numbers _ _
  · exact compares_number_word hna (hb.resolve_left hnb) _
  · rw [Std.OrientedOrd.eq_swap, Ordering.compares_swap]
    exact compares_number_word hnb (ha.resolve_left hna) _
  · exact compares_map fun c _ d _ => compares_toNat c d

end Identifier

theorem Release.compares_place (a b : Release) : (a.compare b).Compares a.place b.place :=
  compares_then (compares_compare _ _) (compares_then (compares_compare _ _) (compares_compare _ _))

theorem compares_prereleasePlace {a b : Option (List Identifier)}
    (ha : ∀ identifiers ∈ a, ∀ x ∈ identifiers, x.IsOrdered)
    (hb : ∀ identifiers ∈ b, ∀ x ∈ identifiers, x.IsOrdered) :
    (comparePrereleases a b).Compares (prereleasePlace a) (prereleasePlace b) := by
  cases a with
  | none =>
    cases b with
    | none => rfl
    | some bs => exact WithTop.coe_lt_top _
  | some as =>
    cases b with
    | none => exact WithTop.coe_lt_top _
    | some bs =>
      have h : (List.compareLex Identifier.compare as bs).Compares _ _ :=
        compares_map fun x hx y hy => Identifier.compares_place (ha as rfl x hx) (hb bs rfl y hy)
      exact compares_coe h

namespace Version

variable {a b : Version}

theorem compares_place (ha : a.IsOrdered) (hb : b.IsOrdered) :
    (Ord.compare a b).Compares a.place b.place :=
  compares_then (Release.compares_place _ _) (compares_prereleasePlace ha hb)

theorem compare_cases (ha : a.IsOrdered) (hb : b.IsOrdered) :
    (Ord.compare a b = .lt ∧ a.place < b.place) ∨ (Ord.compare a b = .eq ∧ a.place = b.place) ∨
      (Ord.compare a b = .gt ∧ b.place < a.place) := by
  have h := compares_place ha hb
  cases hc : Ord.compare a b <;> rw [hc] at h
  · exact .inl ⟨rfl, h⟩
  · exact .inr (.inl ⟨rfl, h⟩)
  · exact .inr (.inr ⟨rfl, h⟩)

theorem same_eq_true_iff (ha : a.IsOrdered) (hb : b.IsOrdered) :
    a.same b = true ↔ a.place = b.place := by
  obtain ⟨ho, hp⟩ | ⟨ho, hp⟩ | ⟨ho, hp⟩ := compare_cases ha hb
  · simp [same, ho, hp.ne]
  · simp [same, ho, hp]
  · simp [same, ho, hp.ne']

theorem lt_iff_place_lt (ha : a.IsOrdered) (hb : b.IsOrdered) : a < b ↔ a.place < b.place :=
  (compares_place ha hb).eq_lt

/-! ### Versions that may be missing -/

section Optional

variable {a b c : Option Version} (ha : ∀ v ∈ a, v.IsOrdered) (hb : ∀ v ∈ b, v.IsOrdered)

/-- The place of a version; a missing one comes before all places. -/
def optionalPlace : Option Version → WithBot Place
  | none => ⊥
  | some v => v.place

include ha hb

theorem compares_optionalPlace :
    (Ord.compare a b).Compares (optionalPlace a) (optionalPlace b) := by
  cases a with
  | none =>
    cases b with
    | none => rfl
    | some v => exact WithBot.bot_lt_coe _
  | some u =>
    cases b with
    | none => exact WithBot.bot_lt_coe _
    | some v =>
      change (Ord.compare u v).Compares _ _
      obtain ⟨ho, hp⟩ | ⟨ho, hp⟩ | ⟨ho, hp⟩ := compare_cases (ha u rfl) (hb v rfl)
      · rw [ho]
        exact WithBot.coe_lt_coe.mpr hp
      · rw [ho]
        exact congrArg WithBot.some hp
      · rw [ho]
        exact WithBot.coe_lt_coe.mpr hp

theorem isLE_compare_iff :
    (Ord.compare a b).isLE = true ↔ optionalPlace a ≤ optionalPlace b := by
  rw [← (compares_optionalPlace ha hb).ne_gt, Ordering.isLE_iff_ne_gt]

/-- Ordered versions are in a total preorder, and a missing version comes before them all. -/
theorem compare_preorder (hc : ∀ v ∈ c, v.IsOrdered) :
    (Ord.compare a a = .eq ∧ Ord.compare a b = (Ord.compare b a).swap ∧
      ((Ord.compare a b).isLE = true → (Ord.compare b c).isLE = true →
        (Ord.compare a c).isLE = true)) ∧
    (∀ u v : Version, Ord.compare (some u) (some v) = u.compare v) ∧
    (∀ v : Version, Ord.compare none (some v) = .lt) ∧
    ∀ text : String, compareTexts none (some text) = .ok .lt := by
  have hab := compares_optionalPlace ha hb
  have hba := compares_optionalPlace hb ha
  refine ⟨⟨(compares_optionalPlace ha ha).eq_eq.mpr rfl, ?_, ?_⟩, fun _ _ => rfl, fun _ => rfl,
    fun _ => rfl⟩
  · exact hab.inj (Ordering.compares_swap.mpr hba)
  · rw [isLE_compare_iff ha hb, isLE_compare_iff hb hc, isLE_compare_iff ha hc]
    exact le_trans

omit ha hb

/-- Numbers compare by value, whatever zeros stand in front, and come before words. -/
theorem compare_preorder_identifiers :
    let v (identifiers : String) : Option Version :=
      some (.ofComponents { major := 1, prerelease := some identifiers })
    ((∀ u ∈ v "9.1", u.IsOrdered) ∧ (∀ u ∈ v "09.01.x", u.IsOrdered) ∧
      ∀ u ∈ v "10.-", u.IsOrdered) ∧ (Ord.compare (v "9.1") (v "10.-")).isLE = true := by
  intro v
  have h : (∀ u ∈ v "9.1", u.IsOrdered) ∧ (∀ u ∈ v "09.01.x", u.IsOrdered) ∧
      ∀ u ∈ v "10.-", u.IsOrdered := by decide +kernel
  obtain ⟨ha, hb, hc⟩ := h
  exact ⟨⟨ha, hb, hc⟩,
    (compare_preorder ha hb hc).1.2.2 (by decide +kernel) (by decide +kernel)⟩

end Optional

end Version

end Versioning
