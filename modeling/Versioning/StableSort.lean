/-! Sorting that keeps the order of elements that compare as equal.  A transitive comparison has one
such order, whatever the algorithm.  For a comparison that is not transitive the order is that of an
insertion sort from the end of the list, and need not be that of the sort it stands for, which may
compare other pairs. -/

namespace Versioning

/-- The sorted list with one more element, in front of those that compare as equal to it. -/
def insertSorted {α : Type} (cmp : α → α → Ordering) (x : α) : List α → List α
  | [] => [x]
  | y :: ys => if (cmp y x).isLT then y :: insertSorted cmp x ys else x :: y :: ys

/-- The elements in ascending order; equal ones stay in the order of the list. -/
def stableSort {α : Type} (cmp : α → α → Ordering) : List α → List α
  | [] => []
  | x :: xs => insertSorted cmp x (stableSort cmp xs)

theorem insertSorted_perm {α : Type} (cmp : α → α → Ordering) (x : α) (xs : List α) :
    (insertSorted cmp x xs).Perm (x :: xs) := by
  fun_induction insertSorted cmp x xs with
  | case1 => rfl
  | case2 y ys h ih => exact (ih.cons y).trans (.swap x y ys)
  | case3 => rfl

theorem stableSort_perm {α : Type} (cmp : α → α → Ordering) (xs : List α) :
    (stableSort cmp xs).Perm xs := by
  induction xs with
  | nil => rfl
  | cons x xs ih => exact (insertSorted_perm cmp x _).trans (ih.cons x)

section Pairwise

variable {α : Type} {cmp : α → α → Ordering} {r : α → α → Prop}

theorem insertSorted_pairwise (htrans : ∀ a b c, r a b → r b c → r a c) {x : α} {ys : List α}
    (hlt : ∀ y ∈ ys, (cmp y x).isLT = true → r y x)
    (hge : ∀ y ∈ ys, ¬(cmp y x).isLT = true → r x y) (hys : ys.Pairwise r) :
    (insertSorted cmp x ys).Pairwise r := by
  induction ys with
  | nil => exact List.pairwise_singleton r x
  | cons y ys ih =>
    obtain ⟨hy, hys⟩ := List.pairwise_cons.mp hys
    rw [insertSorted]
    split
    next h =>
      refine List.pairwise_cons.mpr ⟨fun z hz => ?_, ih (fun z hz => hlt z (.tail y hz))
        (fun z hz => hge z (.tail y hz)) hys⟩
      rcases List.mem_cons.mp ((insertSorted_perm cmp x ys).mem_iff.mp hz) with rfl | hz
      · exact hlt y (.head ys) h
      · exact hy z hz
    next h =>
      have hxy : r x y := hge y (.head ys) h
      refine List.pairwise_cons.mpr ⟨fun z hz => ?_, List.pairwise_cons.mpr ⟨hy, hys⟩⟩
      rcases List.mem_cons.mp hz with rfl | hz
      · exact hxy
      · exact htrans x y z hxy (hy z hz)

/-- The sorted list is ascending in every transitive relation that the comparison decides. -/
theorem stableSort_pairwise (htrans : ∀ a b c, r a b → r b c → r a c) {xs : List α}
    (hlt : ∀ x ∈ xs, ∀ y ∈ xs, (cmp x y).isLT = true → r x y)
    (hge : ∀ x ∈ xs, ∀ y ∈ xs, ¬(cmp y x).isLT = true → r x y) :
    (stableSort cmp xs).Pairwise r := by
  induction xs with
  | nil => exact List.Pairwise.nil
  | cons x xs ih =>
    have hmem : ∀ y ∈ stableSort cmp xs, y ∈ x :: xs := fun y hy =>
      List.mem_cons_of_mem x ((stableSort_perm cmp xs).mem_iff.mp hy)
    refine insertSorted_pairwise htrans (fun y hy => hlt y (hmem y hy) x (.head xs))
      (fun y hy => hge x (.head xs) y (hmem y hy)) (ih ?_ ?_)
    · exact fun a ha b hb => hlt a (.tail x ha) b (.tail x hb)
    · exact fun a ha b hb => hge a (.tail x ha) b (.tail x hb)

end Pairwise

section Ascending

variable {α : Type} {cmp : α → α → Ordering} {x : α} {xs ys : List α}

theorem insertSorted_of_not_lt (h : ∀ y ∈ ys, cmp y x ≠ .lt) :
    insertSorted cmp x ys = x :: ys := by
  cases ys with
  | nil => rfl
  | cons y ys => rw [insertSorted, if_neg (by simpa [Ordering.isLT_iff_eq_lt] using h y (.head ys))]

theorem insertSorted_append (h : ∀ y ∈ xs, cmp y x = .lt) :
    insertSorted cmp x (xs ++ ys) = xs ++ insertSorted cmp x ys := by
  induction xs with
  | nil => rfl
  | cons y xs ih =>
    have hy : (cmp y x).isLT = true := Ordering.isLT_iff_eq_lt.mpr (h y (.head xs))
    rw [List.cons_append, insertSorted, if_pos hy, ih fun z hz => h z (.tail y hz)]
    rfl

theorem stableSort_append (cmp : α → α → Ordering) (xs ys : List α) :
    stableSort cmp (xs ++ ys) = xs.foldr (insertSorted cmp) (stableSort cmp ys) := by
  induction xs with
  | nil => rfl
  | cons x xs ih => exact congrArg (insertSorted cmp x) ih

variable [Std.OrientedCmp cmp]

theorem stableSort_eq_self (h : xs.Pairwise (cmp · · = .lt)) : stableSort cmp xs = xs := by
  induction xs with
  | nil => rfl
  | cons x xs ih =>
    obtain ⟨hx, hxs⟩ := List.pairwise_cons.mp h
    rw [stableSort, ih hxs]
    refine insertSorted_of_not_lt fun y hy => ?_
    simp [Std.OrientedCmp.gt_of_lt (hx y hy)]

/-- Each element of an ascending list goes in front of its equal. -/
theorem foldr_insertSorted_self (h : (xs ++ ys).Pairwise (cmp · · = .lt)) :
    ys.foldr (insertSorted cmp) (xs ++ ys) = xs ++ ys.flatMap fun y => [y, y] := by
  induction ys generalizing xs with
  | nil => rfl
  | cons y ys ih =>
    have hxs : ∀ x ∈ xs, cmp x y = .lt := fun x hx =>
      (List.pairwise_append.mp h).2.2 x hx y (.head ys)
    have hys : ∀ z ∈ y :: ys.flatMap (fun z => [z, z]), cmp z y ≠ .lt := by
      intro z hz
      have hz : z ∈ y :: ys := by simpa using hz
      rcases List.mem_cons.mp hz with rfl | hz
      · have heq : cmp z z = .eq := Std.ReflCmp.compare_self
        simp [heq]
      · have hlt := List.rel_of_pairwise_cons (List.pairwise_append.mp h).2.1 hz
        simp [Std.OrientedCmp.gt_of_lt hlt]
    have hrest : ys.foldr (insertSorted cmp) (xs ++ y :: ys) =
        xs ++ y :: ys.flatMap fun z => [z, z] := by
      simpa using @ih (xs ++ [y]) (by simpa using h)
    rw [List.foldr_cons, hrest, insertSorted_append hxs, insertSorted_of_not_lt hys]
    rfl

/-- An ascending list beside itself is sorted into pairs. -/
theorem stableSort_append_self (h : xs.Pairwise (cmp · · = .lt)) :
    stableSort cmp (xs ++ xs) = xs.flatMap fun x => [x, x] := by
  rw [stableSort_append, stableSort_eq_self h]
  exact @foldr_insertSorted_self α cmp [] xs _ h

end Ascending

end Versioning
