import Mathlib.Data.List.Forall2
import Versioning.Lookup

/-! Outcomes of lookups that are made one after the other: they end in a value just if each of them
does, and the value is made of theirs.  What holds of all versions that are found on the way is
carried over to the value by `Yields`. -/

namespace Versioning

theorem exists_left_of_forall₂ {α β : Type} {R : α → β → Prop} {xs : List α} {ys : List β} {y : β}
    (h : List.Forall₂ R xs ys) (hy : y ∈ ys) : ∃ x ∈ xs, R x y := by
  induction h with
  | nil => cases hy
  | @cons x y' xs ys hxy _ ih =>
    rcases List.mem_cons.mp hy with rfl | hy
    · exact ⟨x, .head xs, hxy⟩
    · obtain ⟨x', hx, hr⟩ := ih hy
      exact ⟨x', .tail x hx, hr⟩

theorem exists_between_of_forall₂ {α β γ : Type} {R : α → β → Prop} {S : β → γ → Prop}
    {xs : List α} {zs : List γ} (h : List.Forall₂ (fun x z => ∃ y, R x y ∧ S y z) xs zs) :
    ∃ ys, List.Forall₂ R xs ys ∧ List.Forall₂ S ys zs := by
  induction h with
  | nil => exact ⟨[], .nil, .nil⟩
  | cons hxz _ ih =>
    obtain ⟨y, hxy, hyz⟩ := hxz
    obtain ⟨ys, hxs, hzs⟩ := ih
    exact ⟨y :: ys, .cons hxy hxs, .cons hyz hzs⟩

theorem mapM_eq_ok_iff {ε α β : Type} {f : α → Except ε β} {xs : List α} {ys : List β} :
    xs.mapM f = .ok ys ↔ List.Forall₂ (fun x y => f x = .ok y) xs ys := by
  induction xs generalizing ys with
  | nil => simp [pure, Except.pure, eq_comm]
  | cons x xs ih =>
    rw [List.mapM_cons, List.forall₂_cons_left_iff]
    cases f x with
    | error e => simp [bind, Except.bind]
    | ok y =>
      cases hxs : xs.mapM f with
      | error e => simp [bind, Except.bind, ← ih, hxs]
      | ok ys' => simp [bind, Except.bind, pure, Except.pure, ← ih, hxs, eq_comm]

theorem exists_mapM_eq_ok {ε α β : Type} {f : α → Except ε β} {xs : List α}
    (h : ∀ x ∈ xs, ∃ y, f x = .ok y) : ∃ ys, xs.mapM f = .ok ys := by
  induction xs with
  | nil => exact ⟨[], rfl⟩
  | cons x xs ih =>
    obtain ⟨⟨y, hy⟩, hxs⟩ := List.forall_mem_cons.mp h
    obtain ⟨ys, hys⟩ := ih hxs
    exact ⟨y :: ys, by rw [List.mapM_cons, hy, hys]; rfl⟩

/-- If an outcome is an error, the first such error ends the whole. -/
theorem exists_mapM_eq_error {ε α β : Type} {P : ε → Prop} {f : α → Except ε β} {xs : List α}
    (hP : ∀ x ∈ xs, ∀ e, f x = .error e → P e) (h : ∃ x ∈ xs, ∃ e, f x = .error e) :
    ∃ e, xs.mapM f = .error e ∧ P e := by
  induction xs with
  | nil => exact absurd h (by simp)
  | cons x xs ih =>
    obtain ⟨hx, hxs⟩ := List.forall_mem_cons.mp hP
    cases hfx : f x with
    | error e => exact ⟨e, by rw [List.mapM_cons, hfx]; rfl, hx e hfx⟩
    | ok y =>
      obtain ⟨x', hmem, e, he⟩ := h
      rcases List.mem_cons.mp hmem with rfl | hmem
      · rw [hfx] at he
        cases he
      · obtain ⟨e, hrest, hPe⟩ := ih hxs ⟨x', hmem, e, he⟩
        exact ⟨e, by rw [List.mapM_cons, hfx, hrest]; rfl, hPe⟩

/-- The first outcome that is an error ends the whole. -/
theorem mapM_eq_error_of_append {ε α β : Type} {f : α → Except ε β} {before after : List α} {x : α}
    {e : ε} (hbefore : ∀ y ∈ before, ∃ z, f y = .ok z) (hx : f x = .error e) :
    (before ++ x :: after).mapM f = .error e := by
  obtain ⟨zs, hzs⟩ := exists_mapM_eq_ok hbefore
  rw [List.mapM_append, hzs, List.mapM_cons, hx]
  rfl

namespace Lookup

variable {α β : Type} {step : α → β → α} {init result : α}

theorem run_bind_eq_ok_iff {computation : Lookup α} {next : α → Lookup β} {b : β} :
    (computation >>= next).run = .ok b ↔
      ∃ a, computation.run = .ok a ∧ (next a).run = .ok b := by
  rw [run_bind]
  cases computation.run with
  | error e => simp [bind, Except.bind]
  | ok a => simp [bind, Except.bind]

theorem run_map_eq_ok_iff {computation : Lookup α} {f : α → β} {b : β} :
    (f <$> computation).run = .ok b ↔ ∃ a, computation.run = .ok a ∧ f a = b := by
  rw [← bind_pure_comp, run_bind_eq_ok_iff]
  simp

theorem run_ite_fail_eq_ok_iff {p : Prop} [Decidable p] {error : FormatError}
    {computation : Lookup α} {a : α} : (if p then fail error else computation).run = .ok a ↔
      ¬p ∧ computation.run = .ok a := by
  split <;> simp [*]

theorem ofExcept_mapM (f : α → Except FormatError β) (xs : List α) :
    ofExcept (xs.mapM f) = xs.mapM fun x => ofExcept (f x) := by
  induction xs with
  | nil => rfl
  | cons x xs ih =>
    rw [List.mapM_cons, List.mapM_cons, ← ih]
    cases f x with
    | error e => rfl
    | ok y => cases xs.mapM f <;> rfl

theorem run_mapM (f : α → Lookup β) (xs : List α) :
    (xs.mapM f).run = xs.mapM fun x => (f x).run := by
  induction xs with
  | nil => rfl
  | cons x xs ih =>
    simp only [List.mapM_cons, run_bind, run_pure, ih]
    rfl

theorem run_mapM_eq_ok_iff {f : α → Lookup β} {xs : List α} {ys : List β} :
    (xs.mapM f).run = .ok ys ↔ List.Forall₂ (fun x y => (f x).run = .ok y) xs ys := by
  rw [run_mapM, mapM_eq_ok_iff]

/-- Results that are taken together one by one can as well be taken together at the end. -/
theorem foldlM_map_eq {γ : Type} (f : γ → Lookup β) (xs : List γ) :
    xs.foldlM (fun value x => step value <$> f x) init = List.foldl step init <$> xs.mapM f := by
  induction xs generalizing init with
  | nil => simp
  | cons x xs ih => simp [List.foldlM_cons, List.mapM_cons, ih, Functor.map_map]

theorem run_foldlM_eq_ok_iff {γ : Type} {f : γ → Lookup β} {xs : List γ} :
    (xs.foldlM (fun value x => step value <$> f x) init).run = .ok result ↔
      ∃ ys, List.Forall₂ (fun x y => (f x).run = .ok y) xs ys ∧ ys.foldl step init = result := by
  rw [foldlM_map_eq, run_map_eq_ok_iff]
  simp only [run_mapM_eq_ok_iff]

/-! ### Versions found -/

/-- The versions that the texts show which the computation asks about, in order. -/
def found : Lookup α → List Version
  | done _ => []
  | fail _ => []
  | ask text next => (Version.parse text).toOption.toList ++ (next (Version.parse text)).found

theorem exists_parse_of_mem_found {computation : Lookup α} {v : Version}
    (h : v ∈ computation.found) : ∃ text, Version.parse text = .ok v := by
  induction computation with
  | done => cases h
  | fail => cases h
  | ask text next ih =>
    rcases List.mem_append.mp h with h | h
    · cases hv : Version.parse text with
      | error e => simp [hv, Except.toOption] at h
      | ok u =>
        obtain rfl : v = u := by simpa [hv, Except.toOption] using h
        exact ⟨text, hv⟩
    · exact ih _ h

theorem found_bind (computation : Lookup α) (next : α → Lookup β) :
    (computation >>= next).found =
      computation.found ++ computation.run.toOption.elim [] fun a => (next a).found := by
  induction computation with
  | done => rfl
  | fail => rfl
  | ask text answer ih =>
    have hih := ih (Version.parse text)
    simp only [found, run, List.append_assoc]
    exact congrArg _ hih

theorem found_mapError (change : FormatError → FormatError) (computation : Lookup α) :
    (computation.mapError change).found = computation.found := by
  induction computation with
  | done => rfl
  | fail => rfl
  | ask text next ih => exact congrArg ((Version.parse text).toOption.toList ++ ·) (ih _)

/-- If all versions that are found satisfy `P`, the value satisfies `Q`, provided there is one. -/
def Yields (P : Version → Prop) (Q : α → Prop) (computation : Lookup α) : Prop :=
  (∀ v ∈ computation.found, P v) → ∀ a, computation.run = .ok a → Q a

namespace Yields

variable {P : Version → Prop} {Q : α → Prop} {R : β → Prop} {computation : Lookup α}

theorem pure {a : α} (h : Q a) : (Pure.pure a : Lookup α).Yields P Q := by
  rintro - b hb
  obtain rfl : a = b := Except.ok.inj hb
  exact h

theorem fail (error : FormatError) : (Lookup.fail error : Lookup α).Yields P Q :=
  fun _ _ h => by cases h

theorem ofExcept {outcome : Except FormatError α} (h : ∀ a, outcome = .ok a → Q a) :
    (Lookup.ofExcept outcome).Yields P Q := by
  rintro - a ha
  exact h a (by rwa [run_ofExcept] at ha)

theorem version (text : List Char) : (Lookup.version text).Yields P P := by
  intro h v hv
  rw [run_version] at hv
  exact h v (List.mem_append_left _ (by simp [hv, Except.toOption]))

/-- The value is also known to be the one that the computation ends in. -/
theorem and_run (h : computation.Yields P Q) :
    computation.Yields P fun a => Q a ∧ computation.run = .ok a :=
  fun hfound a ha => ⟨h hfound a ha, ha⟩

theorem bind {next : α → Lookup β} (h : computation.Yields P Q)
    (hnext : ∀ a, Q a → (next a).Yields P R) : (computation >>= next).Yields P R := by
  intro hfound b hb
  obtain ⟨a, ha, hb⟩ := run_bind_eq_ok_iff.mp hb
  rw [found_bind, ha] at hfound
  obtain ⟨hfound, hrest⟩ := List.forall_mem_append.mp hfound
  exact hnext a (h hfound a ha) hrest b hb

theorem map {f : α → β} (h : computation.Yields P Q) (hf : ∀ a, Q a → R (f a)) :
    (f <$> computation).Yields P R := by
  rw [← bind_pure_comp]
  exact h.bind fun a ha => .pure (hf a ha)

theorem mapError (h : computation.Yields P Q) (change : FormatError → FormatError) :
    (computation.mapError change).Yields P Q := by
  intro hfound a ha
  rw [found_mapError] at hfound
  rw [run_mapError] at ha
  cases hrun : computation.run with
  | error e =>
    rw [hrun] at ha
    cases ha
  | ok b =>
    rw [hrun] at ha
    obtain rfl : b = a := Except.ok.inj ha
    exact h hfound b hrun

theorem mapM {f : α → Lookup β} {xs : List α} (h : ∀ x ∈ xs, (f x).Yields P R) :
    (xs.mapM f).Yields P fun ys => ∀ y ∈ ys, R y := by
  induction xs with
  | nil => exact .pure (List.forall_mem_nil R)
  | cons x xs ih =>
    obtain ⟨hx, hxs⟩ := List.forall_mem_cons.mp h
    rw [List.mapM_cons]
    refine hx.bind fun y hy => (ih hxs).bind fun ys hys => ?_
    exact .pure (List.forall_mem_cons.mpr ⟨hy, hys⟩)

theorem foldlM {f : β → α → Lookup β} {xs : List α} {init : β} (hinit : R init)
    (h : ∀ b, R b → ∀ x ∈ xs, (f b x).Yields P R) : (xs.foldlM f init).Yields P R := by
  induction xs generalizing init with
  | nil => exact .pure hinit
  | cons x xs ih =>
    rw [List.foldlM_cons]
    refine (h init hinit x (.head xs)).bind fun b hb => ih hb fun b hb x hx => ?_
    exact h b hb x (.tail _ hx)

end Yields

end Lookup

end Versioning
