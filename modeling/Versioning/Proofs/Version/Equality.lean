import Mathlib.Data.List.Forall2
import Versioning.Proofs.Version.Place

/-! Versions that are equal in the order.  They are those with one key: the same release, and
identifiers that are the same words or write the same numbers.  So equality is an equivalence on all
versions, ordered or not.  Every ordered version compares alike with equal ones; one that is not may
lie between two spellings of a number, as `0x` does between `01` and `1`. -/

namespace Versioning

theorem compareLex_eq_eq_iff {α β : Type} {cmp : α → α → Ordering} {f : α → β}
    (h : ∀ a b, cmp a b = .eq ↔ f a = f b) {as bs : List α} :
    List.compareLex cmp as bs = .eq ↔ as.map f = bs.map f := by
  induction as generalizing bs with
  | nil => cases bs <;> simp [List.compareLex_nil_nil, List.compareLex_nil_cons]
  | cons a as ih =>
    cases bs with
    | nil => simp [List.compareLex_cons_nil]
    | cons b bs =>
      rw [List.compareLex_cons_cons, List.map_cons, List.map_cons, List.cons.injEq, ← h, ← ih]
      cases cmp a b <;> simp

theorem compareLex_congr_right {α : Type} {cmp : α → α → Ordering} {as bs cs : List α}
    (hlength : as.length = bs.length)
    (h : ∀ p ∈ cs.zip (as.zip bs), cmp p.1 p.2.1 = cmp p.1 p.2.2) :
    List.compareLex cmp cs as = List.compareLex cmp cs bs := by
  induction cs generalizing as bs with
  | nil =>
    cases as with
    | nil => rw [List.eq_nil_of_length_eq_zero hlength.symm]
    | cons a as =>
      obtain ⟨b, bs, rfl⟩ := List.exists_cons_of_length_eq_add_one hlength.symm
      rfl
  | cons c cs ih =>
    cases as with
    | nil => rw [List.eq_nil_of_length_eq_zero hlength.symm]
    | cons a as =>
      obtain ⟨b, bs, rfl⟩ := List.exists_cons_of_length_eq_add_one hlength.symm
      obtain ⟨hhead, hrest⟩ := List.forall_mem_cons.mp h
      rw [List.compareLex_cons_cons, List.compareLex_cons_cons, hhead,
        ih (Nat.succ.inj hlength) hrest]

namespace Identifier

variable {a b c : Identifier}

theorem compare_eq_eq_iff : a.compare b = .eq ↔ a.key = b.key := by
  unfold Identifier.compare key
  by_cases ha : Text.isNumeric a = true <;> by_cases hb : Text.isNumeric b = true
  · simp [ha, hb]
  · have hne : a ≠ b := by
      rintro rfl
      exact hb ha
    simp [ha, hb, hne]
  · have hne : a ≠ b := by
      rintro rfl
      exact ha hb
    simp [ha, hb, hne]
  · simp [ha, hb]

/-- Two spellings of a number have one place, so an ordered identifier does not tell them apart. -/
theorem compare_congr_right (h : a.key = b.key) (hc : a = b ∨ c.IsOrdered) :
    c.compare a = c.compare b := by
  obtain rfl | hc := hc
  · rfl
  unfold key at h
  split at h <;> split at h
  next ha hb =>
    have hplace : a.place = b.place := by
      rw [place, place, if_pos ha, if_pos hb, Key.number.inj h]
    have hab := compares_place hc (.inl hb)
    rw [← hplace] at hab
    exact (compares_place hc (.inl ha)).inj hab
  next => cases h
  next => cases h
  next => rw [Key.word.inj h]

end Identifier

theorem Release.compare_eq_eq_iff {a b : Release} : a.compare b = .eq ↔ a = b := by
  cases a
  cases b
  simp [Release.compare, Ordering.then_eq_eq]

theorem comparePrereleases_eq_eq_iff {a b : Option (List Identifier)} :
    comparePrereleases a b = .eq ↔
      a.map (·.map Identifier.key) = b.map (·.map Identifier.key) := by
  cases a <;> cases b <;> simp [comparePrereleases]
  exact compareLex_eq_eq_iff fun x y => @Identifier.compare_eq_eq_iff x y

namespace Version

variable {a b c v : Version}

theorem same_iff_key_eq : a.same b = true ↔ a.key = b.key := by
  change (Version.compare a b).isEq = true ↔ _
  rw [Ordering.isEq_iff_eq_eq, Version.compare, Ordering.then_eq_eq, Release.compare_eq_eq_iff,
    comparePrereleases_eq_eq_iff, key, key, Key.mk.injEq]

theorem same_refl (a : Version) : a.same a = true := same_iff_key_eq.mpr rfl

theorem same_comm : a.same b = b.same a := by
  rw [Bool.eq_iff_iff, same_iff_key_eq, same_iff_key_eq, eq_comm]

theorem same_trans (hab : a.same b = true) (hbc : b.same c = true) : a.same c = true :=
  same_iff_key_eq.mpr ((same_iff_key_eq.mp hab).trans (same_iff_key_eq.mp hbc))

/-- The identifiers of the version are ordered wherever those of `a` and `b` are spelled
differently. -/
def IsIndifferent (v a b : Version) : Prop :=
  ∀ vs ∈ v.identifiers, ∀ as ∈ a.identifiers, ∀ bs ∈ b.identifiers,
    ∀ p ∈ vs.zip (as.zip bs), p.2.1 = p.2.2 ∨ p.1.IsOrdered

instance (v a b : Version) : Decidable (v.IsIndifferent a b) :=
  inferInstanceAs (Decidable (∀ vs ∈ v.identifiers, ∀ as ∈ a.identifiers, ∀ bs ∈ b.identifiers,
    ∀ p ∈ vs.zip (as.zip bs), p.2.1 = p.2.2 ∨ p.1.IsOrdered))

theorem IsOrdered.isIndifferent (h : v.IsOrdered) (a b : Version) : v.IsIndifferent a b :=
  fun vs hvs _ _ _ _ p hp => .inr (h vs hvs p.1 (List.of_mem_zip hp).1)

theorem isIndifferent_of_prerelease_eq (h : a.prerelease = b.prerelease) (v : Version) :
    v.IsIndifferent a b := by
  intro vs _ as has bs hbs p hp
  have hidentifiers : a.identifiers = b.identifiers := by
    rw [Components.identifiers, Components.identifiers, h]
  obtain rfl : as = bs := Option.some.inj (has.symm.trans (hidentifiers.trans hbs))
  exact .inl (List.forall₂_zip (List.forall₂_refl as) (List.of_mem_zip hp).2)

/-- A version lies between two equal ones only where they are spelled differently and its own
identifier is not ordered. -/
theorem compare_congr_of_isIndifferent (h : a.same b = true) (hv : v.IsIndifferent a b) :
    Ord.compare v a = Ord.compare v b := by
  have hkey := same_iff_key_eq.mp h
  simp only [key, Key.mk.injEq] at hkey
  obtain ⟨hrelease, hidentifiers⟩ := hkey
  change Version.compare v a = Version.compare v b
  rw [Version.compare, Version.compare, hrelease]
  refine congrArg _ ?_
  cases ha : a.identifiers with
  | none =>
    rw [ha, Option.map_none, eq_comm, Option.map_eq_none_iff] at hidentifiers
    rw [hidentifiers]
  | some as =>
    rw [ha, Option.map_some, eq_comm, Option.map_eq_some_iff] at hidentifiers
    obtain ⟨bs, hb, hkeys⟩ := hidentifiers
    rw [hb]
    cases hvs : v.identifiers with
    | none => rfl
    | some vs =>
      -- Spellings differ within identifiers, not in how many there are.
      have hforall : List.Forall₂ (fun x y : Identifier => x.key = y.key) as bs := by
        have heq : List.Forall₂ Eq (as.map Identifier.key) (bs.map Identifier.key) :=
          List.forall₂_eq_eq_eq ▸ hkeys.symm
        exact List.forall₂_map_right_iff.mp (List.forall₂_map_left_iff.mp heq)
      refine compareLex_congr_right hforall.length_eq fun p hp => ?_
      exact Identifier.compare_congr_right (List.forall₂_zip hforall (List.of_mem_zip hp).2)
        (hv vs hvs as ha bs hb p hp)

/-- No ordered version lies between two equal ones. -/
theorem compare_congr_of_same (h : a.same b = true) (hv : v.IsOrdered) :
    Ord.compare v a = Ord.compare v b :=
  compare_congr_of_isIndifferent h (hv.isIndifferent a b)

/-- Equal versions with the same prerelease compare alike with every version. -/
theorem compare_congr_of_prerelease_eq (h : a.same b = true) (hp : a.prerelease = b.prerelease) :
    Ord.compare v a = Ord.compare v b :=
  compare_congr_of_isIndifferent h (isIndifferent_of_prerelease_eq hp v)

end Version

end Versioning
