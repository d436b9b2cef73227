import Versioning.Proofs.Range.Normalization
import Versioning.Proofs.Version.Equality

/-! Intervals that merge into a single one.  Those that share a version do, and what they merge into
holds it too.  It may hold more, since a merge keeps the looser of two bounds on a side.  It holds
only what all of them hold if they accord: any two of them overlap, and they have equal bounds
wherever they bound the same side. -/

namespace Versioning

/-- Two intervals overlap and have the same bound wherever they bound the same side. -/
def Interval.Accords (a b : Interval) : Prop :=
  (∀ u ∈ a.lower.version, ∀ v ∈ b.lower.version,
    u.same v = true ∧ a.lower.inclusive = b.lower.inclusive) ∧
  (∀ u ∈ a.upper.version, ∀ v ∈ b.upper.version,
    u.same v = true ∧ a.upper.inclusive = b.upper.inclusive) ∧ a.overlaps b = true

instance (a b : Interval) : Decidable (a.Accords b) := inferInstanceAs (Decidable (_ ∧ _ ∧ _))

/-- Intervals that merge whatever they meet become one interval. -/
theorem exists_coalesce_eq_singleton (P : Interval → Prop) (Q : Interval → Interval → Prop)
    (hrefl : ∀ a, Q a a) (htrans : ∀ a b c, Q c b → Q b a → Q c a)
    (hunion : ∀ a b, P a → P b →
      ∃ c, a.union b = some c ∧ c.isEmpty = false ∧ P c ∧ Q c a ∧ Q c b)
    {current : Interval} {rest : List Interval} (hc : P current) (hr : ∀ i ∈ rest, P i) :
    ∃ c, coalesce (some current) rest = [c] ∧ P c ∧ ∀ i ∈ current :: rest, Q c i := by
  induction rest generalizing current with
  | nil => exact ⟨current, rfl, hc, List.forall_mem_singleton.mpr (hrefl current)⟩
  | cons next rest ih =>
    obtain ⟨hn, hr⟩ := List.forall_mem_cons.mp hr
    obtain ⟨merged, hu, he, hm, hmc, hmn⟩ := hunion current next hc hn
    obtain ⟨c, hcoalesce, hPc, hQ⟩ := ih hm hr
    obtain ⟨hQm, hQrest⟩ := List.forall_mem_cons.mp hQ
    refine ⟨c, by simpa [coalesce, hu, he] using hcoalesce, hPc, ?_⟩
    refine List.forall_mem_cons.mpr ⟨htrans _ _ _ hQm hmc, ?_⟩
    exact List.forall_mem_cons.mpr ⟨htrans _ _ _ hQm hmn, hQrest⟩

namespace Cut

variable {s t x y : Cut}

theorem outerStart_cases (hx : x = ⊥ ∨ x = s) (hy : y = ⊥ ∨ y = s) :
    (outerStart x y = ⊥ ∨ outerStart x y = s) ∧ x ≤ outerStart x y ∧ y ≤ outerStart x y := by
  by_cases hs : s = ⊥ <;> rcases hx with rfl | rfl <;> rcases hy with rfl | rfl <;>
    simp [outerStart, hs]

theorem outerStop_cases (hx : x = ⊤ ∨ x = t) (hy : y = ⊤ ∨ y = t) :
    (outerStop x y = ⊤ ∨ outerStop x y = t) ∧ outerStop x y ≤ x ∧ outerStop x y ≤ y := by
  by_cases ht : t = ⊤ <;> rcases hx with rfl | rfl <;> rcases hy with rfl | rfl <;>
    simp [outerStop, ht]

end Cut

namespace Interval

variable {a b : Interval} {v : Version} {s t : Cut}

theorem IsProper.accords_self (h : a.IsProper) : a.Accords a := by
  have hself {u v : Version} {o : Option Version} (hu : u ∈ o) (hv : v ∈ o) :
      u.same v = true := by
    obtain rfl := Option.mem_unique hu hv
    exact Version.same_refl u
  refine ⟨fun u hu v hv => ⟨hself hu hv, rfl⟩, fun u hu v hv => ⟨hself hu hv, rfl⟩, ?_⟩
  rw [overlaps_iff h.ordered h.ordered, max_self, min_self]
  exact h.start_lt_stop

theorem Accords.start_cases (h : a.Accords b) (ha : a.IsOrdered) (hb : b.IsOrdered)
    (hne : a.start ≠ ⊥) : b.start = ⊥ ∨ b.start = a.start := by
  obtain ⟨⟨_ | u, f⟩, _⟩ := a <;> obtain ⟨⟨_ | v, g⟩, _⟩ := b
  · exact .inl rfl
  · exact absurd rfl hne
  · exact .inl rfl
  · obtain ⟨hs, rfl⟩ : u.same v = true ∧ f = g := h.1 u rfl v rfl
    have hplace := (Version.same_eq_true_iff (ha.lower u rfl) (hb.lower v rfl)).mp hs
    exact .inr (Cut.beside_congr hplace.symm)

theorem Accords.stop_cases (h : a.Accords b) (ha : a.IsOrdered) (hb : b.IsOrdered)
    (hne : a.stop ≠ ⊤) : b.stop = ⊤ ∨ b.stop = a.stop := by
  obtain ⟨_, ⟨_ | u, f⟩⟩ := a <;> obtain ⟨_, ⟨_ | v, g⟩⟩ := b
  · exact .inl rfl
  · exact absurd rfl hne
  · exact .inl rfl
  · obtain ⟨hs, rfl⟩ : u.same v = true ∧ f = g := h.2.1 u rfl v rfl
    have hplace := (Version.same_eq_true_iff (ha.upper u rfl) (hb.upper v rfl)).mp hs
    exact .inr (Cut.beside_congr hplace.symm)

/-- The interval starts at one cut, if it has a lower bound, and stops at the other, if it has an
upper one. -/
structure Spanned (s t : Cut) (i : Interval) : Prop where
  proper : i.IsProper
  start_cases : i.start = ⊥ ∨ i.start = s
  stop_cases : i.stop = ⊤ ∨ i.stop = t

theorem Spanned.of_union (hlt : s < t) (ha : a.Spanned s t) (hb : b.Spanned s t) :
    ∃ c, a.union b = some c ∧ c.isEmpty = false ∧ c.Spanned s t ∧
      (a.start ≤ c.start ∧ c.stop ≤ a.stop) ∧ b.start ≤ c.start ∧ c.stop ≤ b.stop := by
  -- Any start lies before any stop, be there bounds or not, so the two overlap.
  have hlt_of {x y : Cut} (hx : x = ⊥ ∨ x = s) (hy : y = ⊤ ∨ y = t) : x < y := by
    rcases hx with rfl | rfl <;> rcases hy with rfl | rfl
    · exact bot_lt_top
    · exact bot_le.trans_lt hlt
    · exact hlt.trans_le le_top
    · exact hlt
  have ho := ha.proper.ordered.outer hb.proper.ordered
  obtain ⟨hstart, hsa, hsb⟩ := Cut.outerStart_cases ha.start_cases hb.start_cases
  obtain ⟨hstop, hta, htb⟩ := Cut.outerStop_cases ha.stop_cases hb.stop_cases
  rw [← start_outer ha.proper.ordered hb.proper.ordered] at hstart hsa hsb
  rw [← stop_outer ha.proper.ordered hb.proper.ordered] at hstop hta htb
  have he : (a.outer b).isEmpty = false := (isEmpty_eq_false_iff ho).mpr (hlt_of hstart hstop)
  refine ⟨a.outer b, ?_, he, ⟨⟨ho, he⟩, hstart, hstop⟩, ⟨hsa, hta⟩, hsb, htb⟩
  rw [union_eq ha.proper hb.proper, if_pos]
  exact ⟨(hlt_of ha.start_cases hb.stop_cases).le, (hlt_of hb.start_cases ha.stop_cases).le⟩

theorem exists_union_of_contains (ha : a.IsProper) (hb : b.IsProper) (hv : v.IsOrdered)
    (hav : a.contains v = true) (hbv : b.contains v = true) :
    ∃ c, a.union b = some c ∧ c.isEmpty = false ∧ c.IsProper ∧ c.contains v = true := by
  have ho := ha.ordered.outer hb.ordered
  obtain ⟨hsa, hta⟩ := (contains_iff ha.ordered hv).mp hav
  obtain ⟨hsb, htb⟩ := (contains_iff hb.ordered hv).mp hbv
  have hstart : (a.outer b).start ≤ Cut.before v := by
    rw [start_outer ha.ordered hb.ordered, Cut.outerStart]
    split
    · exact hsb
    · split
      · exact hsa
      · exact (min_le_left _ _).trans hsa
  have hstop : Cut.before v < (a.outer b).stop := by
    rw [stop_outer ha.ordered hb.ordered, Cut.outerStop]
    split
    · exact htb
    · split
      · exact hta
      · exact hta.trans_le (le_max_left _ _)
  have hv' : (a.outer b).contains v = true := (contains_iff ho hv).mpr ⟨hstart, hstop⟩
  have he := isEmpty_eq_false_of_contains hv'
  refine ⟨a.outer b, ?_, he, ⟨ho, he⟩, hv'⟩
  rw [union_eq ha hb, if_pos ⟨by order, by order⟩]

end Interval

namespace Range

variable {intervals : List Interval} {v : Version}

theorem exists_ofIntervals_eq_singleton (P : Interval → Prop) (Q : Interval → Interval → Prop)
    (hrefl : ∀ a, Q a a) (htrans : ∀ a b c, Q c b → Q b a → Q c a)
    (hunion : ∀ a b, P a → P b →
      ∃ c, a.union b = some c ∧ c.isEmpty = false ∧ P c ∧ Q c a ∧ Q c b)
    (hne : intervals ≠ []) (h : ∀ i ∈ intervals, i.isEmpty = false ∧ P i) :
    ∃ c, ofIntervals intervals = ⟨[c]⟩ ∧ P c ∧ ∀ i ∈ intervals, Q c i := by
  have hmem {i : Interval} :
      i ∈ stableSort Interval.compare (intervals.filter (!·.isEmpty)) ↔ i ∈ intervals := by
    rw [mem_sorted_iff]
    exact ⟨fun hi => hi.1, fun hi => ⟨hi, (h i hi).1⟩⟩
  obtain ⟨i, hi⟩ := List.exists_mem_of_ne_nil _ hne
  cases hs : stableSort Interval.compare (intervals.filter (!·.isEmpty)) with
  | nil =>
    rw [← hmem, hs] at hi
    contradiction
  | cons current rest =>
    have hP : ∀ j ∈ current :: rest, P j := fun j hj => (h j (hmem.mp (hs ▸ hj))).2
    obtain ⟨hc, hr⟩ := List.forall_mem_cons.mp hP
    obtain ⟨c, hcoalesce, hPc, hQ⟩ :=
      exists_coalesce_eq_singleton P Q hrefl htrans hunion hc hr
    refine ⟨c, ?_, hPc, fun j hj => hQ j (hs ▸ hmem.mpr hj)⟩
    rw [ofIntervals, hs]
    exact congrArg Range.mk hcoalesce

/-- Intervals that all hold an ordered version make a single interval, which holds it too. -/
theorem exists_ofIntervals_of_contains (ho : ∀ i ∈ intervals, i.IsOrdered) (hne : intervals ≠ [])
    (hv : v.IsOrdered) (h : ∀ i ∈ intervals, i.contains v = true) :
    ∃ c, ofIntervals intervals = ⟨[c]⟩ ∧ c.IsProper ∧ c.contains v = true := by
  have hall : ∀ i ∈ intervals, i.isEmpty = false ∧ i.IsProper ∧ i.contains v = true := by
    intro i hi
    have he := Interval.isEmpty_eq_false_of_contains (h i hi)
    exact ⟨he, ⟨ho i hi, he⟩, h i hi⟩
  have hunion (a b : Interval) (ha : a.IsProper ∧ a.contains v = true)
      (hb : b.IsProper ∧ b.contains v = true) : ∃ c, a.union b = some c ∧ c.isEmpty = false ∧
        (c.IsProper ∧ c.contains v = true) ∧ True ∧ True := by
    obtain ⟨c, hu, he, hc⟩ := Interval.exists_union_of_contains ha.1 hb.1 hv ha.2 hb.2
    exact ⟨c, hu, he, hc, trivial, trivial⟩
  obtain ⟨c, hc, hP, _⟩ := exists_ofIntervals_eq_singleton
    (fun i => i.IsProper ∧ i.contains v = true) (fun _ _ => True) (fun _ => trivial)
    (fun _ _ _ _ _ => trivial) hunion hne hall
  exact ⟨c, hc, hP⟩

/-- Intervals that accord start at one cut and stop at another. -/
theorem exists_spanned (hp : ∀ i ∈ intervals, i.IsProper)
    (h : ∀ a ∈ intervals, ∀ b ∈ intervals, a.Accords b) :
    ∃ s t, s < t ∧ ∀ i ∈ intervals, i.Spanned s t := by
  obtain ⟨s, hstart, hs⟩ : ∃ s, (∀ i ∈ intervals, i.start = ⊥ ∨ i.start = s) ∧
      (s = ⊥ ∨ ∃ i ∈ intervals, i.start = s) := by
    by_cases hl : ∃ a ∈ intervals, a.start ≠ ⊥
    · obtain ⟨a, ha, hne⟩ := hl
      refine ⟨a.start, fun b hb => ?_, .inr ⟨a, ha, rfl⟩⟩
      exact (h a ha b hb).start_cases (hp a ha).ordered (hp b hb).ordered hne
    · push Not at hl
      exact ⟨⊥, fun i hi => .inl (hl i hi), .inl rfl⟩
  obtain ⟨t, hstop, ht⟩ : ∃ t, (∀ i ∈ intervals, i.stop = ⊤ ∨ i.stop = t) ∧
      (t = ⊤ ∨ ∃ i ∈ intervals, i.stop = t) := by
    by_cases hu : ∃ a ∈ intervals, a.stop ≠ ⊤
    · obtain ⟨a, ha, hne⟩ := hu
      refine ⟨a.stop, fun b hb => ?_, .inr ⟨a, ha, rfl⟩⟩
      exact (h a ha b hb).stop_cases (hp a ha).ordered (hp b hb).ordered hne
    · push Not at hu
      exact ⟨⊤, fun i hi => .inl (hu i hi), .inl rfl⟩
  refine ⟨s, t, ?_, fun i hi => ⟨hp i hi, hstart i hi, hstop i hi⟩⟩
  rcases hs with rfl | ⟨a, ha, rfl⟩ <;> rcases ht with rfl | ⟨b, hb, rfl⟩
  · exact bot_lt_top
  · exact Interval.stop_ne_bot.bot_lt
  · exact Interval.start_ne_top.lt_top
  · have hoverlaps := (Interval.overlaps_iff (hp a ha).ordered (hp b hb).ordered).mp
      (h a ha b hb).2.2
    exact (le_max_left _ _).trans_lt (hoverlaps.trans_le (min_le_right _ _))

/-- Intervals that accord make a single interval, which holds only what all of them hold. -/
theorem exists_ofIntervals_of_accords (hp : ∀ i ∈ intervals, i.IsProper) (hne : intervals ≠ [])
    (h : ∀ a ∈ intervals, ∀ b ∈ intervals, a.Accords b) :
    ∃ c, ofIntervals intervals = ⟨[c]⟩ ∧ c.IsProper ∧ ∀ v : Version, v.IsOrdered →
      c.contains v = true → ∀ i ∈ intervals, i.contains v = true := by
  obtain ⟨s, t, hlt, hspanned⟩ := exists_spanned hp h
  obtain ⟨c, hc, hP, hQ⟩ := exists_ofIntervals_eq_singleton (·.Spanned s t)
    (fun c i => i.start ≤ c.start ∧ c.stop ≤ i.stop) (fun _ => ⟨le_rfl, le_rfl⟩)
    (fun a b c hcb hba => ⟨hba.1.trans hcb.1, hcb.2.trans hba.2⟩)
    (fun a b ha hb => ha.of_union hlt hb) hne fun i hi => ⟨(hp i hi).nonempty, hspanned i hi⟩
  refine ⟨c, hc, hP.proper, fun v hv hcv i hi => ?_⟩
  rw [Interval.contains_iff hP.proper.ordered hv] at hcv
  rw [Interval.contains_iff (hp i hi).ordered hv]
  obtain ⟨hstart, hstop⟩ := hQ i hi
  exact ⟨hstart.trans hcv.1, hcv.2.trans_le hstop⟩

end Range

end Versioning
