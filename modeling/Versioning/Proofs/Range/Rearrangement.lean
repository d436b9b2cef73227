import Mathlib.Data.List.Perm.Basic
import Mathlib.Order.BoundedOrder.Lattice
import Versioning.Proofs.Range.Constraints

/-! Ranges of the same intervals in another order.  Sorting leaves only intervals of equal versions
in the order in which they came.  If these start alike, it does not matter which one is merged
first: both stop beside the same version, and the merged one stops at the later of the two cuts. -/

namespace Versioning

namespace Cut

variable {s t x : Cut}

theorem outerStart_self : outerStart s s = s := by
  unfold outerStart
  split
  · rfl
  · rw [min_self]

theorem outerStart_le_right (h : t = ⊥ → s = ⊥) : outerStart s t ≤ t := by
  unfold outerStart
  split
  · exact le_rfl
  · split
    next hs ht => exact absurd (h ht) hs
    next => exact min_le_right _ _

theorem le_outerStop_right (h : t ≠ ⊤) : t ≤ outerStop s t := by
  unfold outerStop
  split
  · exact le_rfl
  · exact le_max_right _ _

theorem outerStart_comm : outerStart s t = outerStart t s := by
  unfold outerStart
  rw [min_comm]
  split <;> split <;> simp_all

theorem outerStop_comm : outerStop s t = outerStop t s := by
  unfold outerStop
  rw [max_comm]
  split <;> split <;> simp_all

theorem outerStart_assoc : outerStart (outerStart s t) x = outerStart s (outerStart t x) := by
  unfold outerStart
  by_cases hs : s = ⊥ <;> by_cases ht : t = ⊥ <;> by_cases hx : x = ⊥ <;>
    simp [hs, ht, hx, min_eq_bot, min_assoc]

theorem outerStop_assoc : outerStop (outerStop s t) x = outerStop s (outerStop t x) := by
  unfold outerStop
  by_cases hs : s = ⊤ <;> by_cases ht : t = ⊤ <;> by_cases hx : x = ⊤ <;>
    simp [hs, ht, hx, max_eq_top, max_assoc]

end Cut

namespace Interval

/-- Where the interval starts and where it stops. -/
def cuts (i : Interval) : Cut × Cut := (i.start, i.stop)

/-- Where sorting keeps two intervals in the order in which they came, they start alike. -/
def TiesAlike (a b : Interval) : Prop :=
  a.isEmpty = false → b.isEmpty = false → a.compare b = .eq → a.StartsAlike b

instance (a b : Interval) : Decidable (a.TiesAlike b) :=
  inferInstanceAs (Decidable (a.isEmpty = false → b.isEmpty = false → a.compare b = .eq →
    a.StartsAlike b))

/-- Where sorting puts the interval: by lower, then by upper version; a missing one comes first. -/
def rank (i : Interval) : WithBot Place ×ₗ WithBot Place :=
  toLex (Version.optionalPlace i.lower.version, Version.optionalPlace i.upper.version)

variable {a b c a' b' : Interval}

theorem compares_rank (ha : a.IsOrdered) (hb : b.IsOrdered) :
    (a.compare b).Compares a.rank b.rank :=
  compares_then (Version.compares_optionalPlace ha.lower hb.lower)
    (Version.compares_optionalPlace ha.upper hb.upper)

theorem optionalPlace_eq_bot_iff {v : Option Version} :
    Version.optionalPlace v = ⊥ ↔ v = none := by
  cases v <;> simp [Version.optionalPlace]

theorem stop_eq_top_of_rank_eq (h : a.rank = b.rank) (ha : a.stop = ⊤) : b.stop = ⊤ := by
  have hupper := congrArg Prod.snd (toLex_inj.mp h)
  rw [stop_eq_top_iff] at ha ⊢
  rw [ha] at hupper
  exact optionalPlace_eq_bot_iff.mp hupper.symm

theorem floor_le_of_rank_le (h : a.rank ≤ b.rank) : a.floor ≤ b.floor := by
  have hlower : Version.optionalPlace a.lower.version ≤ Version.optionalPlace b.lower.version := by
    rcases Prod.Lex.le_iff.mp h with h | ⟨h, _⟩
    · exact h.le
    · exact h.le
  obtain ⟨⟨_ | u, f⟩, _⟩ := a <;> obtain ⟨⟨_ | v, g⟩, _⟩ := b
  · exact le_rfl
  · exact bot_le
  · exact absurd (le_bot_iff.mp hlower) WithBot.coe_ne_bot
  · have hplace : u.place ≤ v.place := WithBot.coe_le_coe.mp hlower
    exact Cut.beside_le_beside.mpr (hplace.lt_or_eq.imp_right fun h => ⟨h, le_rfl⟩)

theorem cuts_outer (ha : a.IsOrdered) (hb : b.IsOrdered) :
    (a.outer b).cuts = (Cut.outerStart a.start b.start, Cut.outerStop a.stop b.stop) :=
  Prod.ext (start_outer ha hb) (stop_outer ha hb)

theorem cuts_outer_assoc (ha : a.IsOrdered) (hb : b.IsOrdered) (hc : c.IsOrdered) :
    ((a.outer b).outer c).cuts = (a.outer (b.outer c)).cuts := by
  rw [cuts_outer (ha.outer hb) hc, cuts_outer ha (hb.outer hc), start_outer ha hb,
    stop_outer ha hb, start_outer hb hc, stop_outer hb hc, Cut.outerStart_assoc,
    Cut.outerStop_assoc]

theorem cuts_outer_comm (ha : a.IsOrdered) (hb : b.IsOrdered) :
    (a.outer b).cuts = (b.outer a).cuts := by
  rw [cuts_outer ha hb, cuts_outer hb ha, Cut.outerStart_comm, Cut.outerStop_comm]

theorem floor_outer_le {s : Cut} (ha : a.floor ≤ s) (hb : b.floor ≤ s) :
    (a.outer b).floor ≤ s := by
  rcases @floor_outer a b with h | h
  · exact h ▸ ha
  · exact h ▸ hb

theorem le_floor_outer {s : Cut} (ha : s ≤ a.floor) (hb : s ≤ b.floor) :
    s ≤ (a.outer b).floor := by
  rcases @floor_outer a b with h | h
  · exact h ▸ ha
  · exact h ▸ hb

theorem isEmpty_congr (ha : a.IsOrdered) (hb : b.IsOrdered) (h : a.cuts = b.cuts) :
    a.isEmpty = b.isEmpty := by
  obtain ⟨hstart, hstop⟩ : a.start = b.start ∧ a.stop = b.stop := Prod.mk_inj.mp h
  rw [Bool.eq_iff_iff, isEmpty_iff ha, isEmpty_iff hb, hstart, hstop]

/-- A later interval in the order of the lower versions does not stop before this one starts. -/
theorem IsProper.start_le_stop (hb : b.IsProper) (hle : a.floor ≤ b.floor) : a.start ≤ b.stop := by
  refine not_lt.mp fun hlt => ?_
  have hstop : b.stop ≤ a.floor := le_floor_of_lt hlt
  have hfloor : b.floor ≤ b.start := floor_le_start
  have hproper : b.start < b.stop := hb.start_lt_stop
  order

theorem start_eq_bot_iff_floor : a.start = ⊥ ↔ a.floor = ⊥ := by
  rw [start_eq_bot_iff, floor, Bound.floor]
  cases a.lower.version <;> simp

/-- Merging into an interval with an upper version, in the order of the lower versions, leaves
something. -/
theorem IsProper.outer_isProper (ha : a.IsProper) (hb : b.IsProper) (hle : a.floor ≤ b.floor)
    (htop : b.stop ≠ ⊤) : (a.outer b).IsProper := by
  refine ⟨ha.ordered.outer hb.ordered, ?_⟩
  rw [isEmpty_eq_false_iff (ha.ordered.outer hb.ordered), start_outer ha.ordered hb.ordered,
    stop_outer ha.ordered hb.ordered]
  have hstart : Cut.outerStart a.start b.start ≤ b.start := by
    refine Cut.outerStart_le_right fun hbot => ?_
    rw [start_eq_bot_iff_floor] at hbot ⊢
    exact le_bot_iff.mp (hbot ▸ hle)
  have hstop : b.stop ≤ Cut.outerStop a.stop b.stop := Cut.le_outerStop_right htop
  have hproper : b.start < b.stop := hb.start_lt_stop
  order

end Interval

open Versioning.Interval

/-! ### Merging equal cuts -/

section Congruence

variable {a b a' b' : Interval} (ha : a.IsProper) (hb : b.IsProper) (ha' : a'.IsProper)
  (hb' : b'.IsProper) (hca : a.cuts = a'.cuts) (hcb : b.cuts = b'.cuts)

include ha hb ha' hb' hca hcb

theorem cuts_outer_congr : (a.outer b).cuts = (a'.outer b').cuts := by
  rw [cuts_outer ha.ordered hb.ordered, cuts_outer ha'.ordered hb'.ordered]
  obtain ⟨hsa, hpa⟩ : a.start = a'.start ∧ a.stop = a'.stop := Prod.mk_inj.mp hca
  obtain ⟨hsb, hpb⟩ : b.start = b'.start ∧ b.stop = b'.stop := Prod.mk_inj.mp hcb
  rw [hsa, hpa, hsb, hpb]

theorem union_congr : a.union b = none ∧ a'.union b' = none ∨
    a.union b = some (a.outer b) ∧ a'.union b' = some (a'.outer b') := by
  obtain ⟨hsa, hpa⟩ : a.start = a'.start ∧ a.stop = a'.stop := Prod.mk_inj.mp hca
  obtain ⟨hsb, hpb⟩ : b.start = b'.start ∧ b.stop = b'.stop := Prod.mk_inj.mp hcb
  rw [union_eq ha hb, union_eq ha' hb', hsa, hpa, hsb, hpb]
  split
  · exact .inr ⟨rfl, rfl⟩
  · exact .inl ⟨rfl, rfl⟩

end Congruence

/-- The cuts of what merging leaves depend on those of the intervals alone. -/
theorem cuts_coalesce_congr {current current' : Option Interval} {rest rest' : List Interval}
    (hc : ∀ i ∈ current, i.IsProper) (hc' : ∀ i ∈ current', i.IsProper)
    (hr : ∀ i ∈ rest, i.IsProper) (hr' : ∀ i ∈ rest', i.IsProper)
    (hcur : current.map cuts = current'.map cuts) (hrest : rest.map cuts = rest'.map cuts) :
    (coalesce current rest).map cuts = (coalesce current' rest').map cuts := by
  fun_induction coalesce current rest generalizing current' rest' with
  | case1 current =>
    obtain rfl : rest' = [] := by simpa using hrest.symm
    cases current <;> cases current' <;> simp_all [coalesce]
  | case2 next rest ih =>
    obtain rfl : current' = none := by simpa using hcur.symm
    obtain ⟨next', rest', rfl, hnext, hrest⟩ := List.map_eq_cons_iff.mp hrest.symm
    obtain ⟨hn, hr⟩ := List.forall_mem_cons.mp hr
    obtain ⟨hn', hr'⟩ := List.forall_mem_cons.mp hr'
    exact @ih (some next') rest' (by simpa using hn) (by simpa using hn') hr hr'
      (congrArg some hnext.symm) hrest.symm
  | case3 current next rest hu ih =>
    obtain ⟨current', rfl, hcuts⟩ := Option.map_eq_some_iff.mp hcur.symm
    obtain ⟨next', rest', rfl, hnext, hrest⟩ := List.map_eq_cons_iff.mp hrest.symm
    obtain ⟨hn, hr⟩ := List.forall_mem_cons.mp hr
    obtain ⟨hn', hr'⟩ := List.forall_mem_cons.mp hr'
    rcases union_congr (hc current rfl) hn (hc' current' rfl) hn' hcuts.symm hnext.symm with
      ⟨_, hu'⟩ | ⟨hsome, _⟩
    · have hih := @ih (some next') rest' (by simpa using hn) (by simpa using hn') hr hr'
        (congrArg some hnext.symm) hrest.symm
      rw [coalesce, hu']
      simp only [List.map_cons, hcuts, hih]
    · rw [hu] at hsome
      contradiction
  | case4 current next rest merged hu ih =>
    obtain ⟨current', rfl, hcuts⟩ := Option.map_eq_some_iff.mp hcur.symm
    obtain ⟨next', rest', rfl, hnext, hrest⟩ := List.map_eq_cons_iff.mp hrest.symm
    obtain ⟨hn, hr⟩ := List.forall_mem_cons.mp hr
    obtain ⟨hn', hr'⟩ := List.forall_mem_cons.mp hr'
    have hp := hc current rfl
    have hp' := hc' current' rfl
    rcases union_congr hp hn hp' hn' hcuts.symm hnext.symm with ⟨hnone, _⟩ | ⟨hsome, hu'⟩
    · rw [hu] at hnone
      contradiction
    · obtain rfl : merged = current.outer next := by simpa [hu] using hsome
      have houter := cuts_outer_congr hp hn hp' hn' hcuts.symm hnext.symm
      have he := isEmpty_congr (hp.ordered.outer hn.ordered) (hp'.ordered.outer hn'.ordered) houter
      rw [coalesce, hu']
      simp only
      refine ih (fun i hi => ?_) (fun i hi => ?_) hr hr' ?_ hrest.symm
      · obtain ⟨rfl, hne⟩ := mem_unless_isEmpty.mp hi
        exact hp.of_union hn hu hne
      · obtain ⟨rfl, hne⟩ := mem_unless_isEmpty.mp hi
        exact hp'.of_union hn' hu' hne
      · rw [← he]
        split
        · rfl
        · exact congrArg some houter

/-! ### Merging in another order -/

theorem coalesce_cons_of_union {a b c : Interval} {rest : List Interval}
    (h : a.union b = some c) (hc : c.isEmpty = false) :
    coalesce (some a) (b :: rest) = coalesce (some c) rest := by
  simp [coalesce, h, hc]

theorem coalesce_cons_of_union_eq_none {a b : Interval} {rest : List Interval}
    (h : a.union b = none) :
    coalesce (some a) (b :: rest) = a :: coalesce (some b) rest := by
  simp [coalesce, h]

section Ties

variable {a b : Interval} {current : Option Interval} {rest : List Interval} (ha : a.IsProper)
  (hb : b.IsProper) (hr : ∀ i ∈ rest, i.IsProper)

include ha hb hr

/-- Two intervals that start together and have upper versions act as what they merge into. -/
theorem cuts_coalesce_pair (hs : a.start = b.start) (hta : a.stop ≠ ⊤) (htb : b.stop ≠ ⊤)
    (hab : a.floor ≤ b.floor) (hc : ∀ c ∈ current, c.IsProper ∧ c.floor ≤ a.floor) :
    (coalesce current (a :: b :: rest)).map cuts =
      (coalesce current (a.outer b :: rest)).map cuts := by
  have hsa : a.start < a.stop := ha.start_lt_stop
  have hsb : b.start < b.stop := hb.start_lt_stop
  have hm : (a.outer b).IsProper := ha.outer_isProper hb hab htb
  have hab_union : a.union b = some (a.outer b) := by
    rw [union_eq ha hb, if_pos ⟨by order, by order⟩]
  have hstart : (a.outer b).start = a.start := by
    rw [start_outer ha.ordered hb.ordered, ← hs, Cut.outerStart_self]
  cases current with
  | none => exact congrArg (List.map cuts) (coalesce_cons_of_union hab_union hm.nonempty)
  | some c =>
    obtain ⟨hc, hca⟩ := hc c rfl
    have hcm : c.floor ≤ (a.outer b).floor := le_floor_outer hca (hca.trans hab)
    by_cases htouch : a.start ≤ c.stop
    · -- All three merge, whichever two of them do so first.
      have hk : (c.outer a).IsProper := hc.outer_isProper ha hca hta
      have hkb : (c.outer a).floor ≤ b.floor := floor_outer_le (hca.trans hab) hab
      have hkstop : a.stop ≤ (c.outer a).stop := by
        rw [stop_outer hc.ordered ha.ordered]
        exact Cut.le_outerStop_right hta
      have hca_union : c.union a = some (c.outer a) := by
        rw [union_eq hc ha, if_pos ⟨ha.start_le_stop hca, htouch⟩]
      have hkb_union : (c.outer a).union b = some ((c.outer a).outer b) := by
        rw [union_eq hk hb, if_pos ⟨hb.start_le_stop hkb, by order⟩]
      have hcm_union : c.union (a.outer b) = some (c.outer (a.outer b)) := by
        rw [union_eq hc hm, if_pos ⟨hm.start_le_stop hcm, hstart.trans_le htouch⟩]
      have hcuts := cuts_outer_assoc hc.ordered ha.ordered hb.ordered
      have hall : ((c.outer a).outer b).IsProper := hk.outer_isProper hb hkb htb
      have hall' : (c.outer (a.outer b)).IsProper := by
        refine ⟨hc.ordered.outer hm.ordered, ?_⟩
        rw [← isEmpty_congr hall.ordered (hc.ordered.outer hm.ordered) hcuts, hall.nonempty]
      rw [coalesce_cons_of_union hca_union hk.nonempty,
        coalesce_cons_of_union hkb_union hall.nonempty,
        coalesce_cons_of_union hcm_union hall'.nonempty]
      exact cuts_coalesce_congr (by simpa using hall) (by simpa using hall') hr hr
        (congrArg some hcuts) rfl
    · have hlt : c.stop < a.start := not_le.mp htouch
      have hca_none : c.union a = none := (union_eq_none_iff hc ha).mpr (.inl hlt)
      have hcm_none : c.union (a.outer b) = none :=
        (union_eq_none_iff hc hm).mpr (.inl (hlt.trans_eq hstart.symm))
      rw [coalesce_cons_of_union_eq_none hca_none, coalesce_cons_of_union_eq_none hcm_none,
        coalesce_cons_of_union hab_union hm.nonempty]

/-- Intervals of equal versions that start together may change places. -/
theorem cuts_coalesce_swap (hs : a.start = b.start) (hrank : a.rank = b.rank)
    (hc : ∀ c ∈ current, c.IsProper ∧ c.floor ≤ a.floor) :
    (coalesce current (a :: b :: rest)).map cuts =
      (coalesce current (b :: a :: rest)).map cuts := by
  have hfloor : a.floor = b.floor :=
    le_antisymm (floor_le_of_rank_le hrank.le) (floor_le_of_rank_le hrank.ge)
  by_cases htop : a.stop = ⊤
  · have hcuts : a.cuts = b.cuts :=
      Prod.ext hs (htop.trans (stop_eq_top_of_rank_eq hrank htop).symm)
    exact cuts_coalesce_congr (fun c hi => (hc c hi).1) (fun c hi => (hc c hi).1)
      (by simpa using ⟨ha, hb, hr⟩) (by simpa using ⟨hb, ha, hr⟩) rfl (by simp [hcuts])
  · have htop' : b.stop ≠ ⊤ := fun h => htop (stop_eq_top_of_rank_eq hrank.symm h)
    have hcuts := cuts_outer_comm ha.ordered hb.ordered
    have hm : (a.outer b).IsProper := ha.outer_isProper hb hfloor.le htop'
    have hm' : (b.outer a).IsProper := hb.outer_isProper ha hfloor.ge htop
    rw [cuts_coalesce_pair ha hb hr hs htop htop' hfloor.le hc,
      cuts_coalesce_pair hb ha hr hs.symm htop' htop hfloor.ge (by rwa [← hfloor])]
    exact cuts_coalesce_congr (fun c hi => (hc c hi).1) (fun c hi => (hc c hi).1)
      (by simpa using ⟨hm, hr⟩) (by simpa using ⟨hm', hr⟩) rfl (by simp [hcuts])

end Ties

section Permutation

variable {a : Interval} {current : Option Interval} {l l' before after : List Interval}

/-- Lists that are merged into the same cuts, whatever was merged before, are so after one more
interval. -/
theorem cuts_coalesce_cons (ha : a.IsProper) {s : Cut} (has : a.floor ≤ s)
    (hc : ∀ c ∈ current, c.IsProper ∧ c.floor ≤ s)
    (h : ∀ current, (∀ c ∈ current, c.IsProper ∧ c.floor ≤ s) →
      (coalesce current l).map cuts = (coalesce current l').map cuts) :
    (coalesce current (a :: l)).map cuts = (coalesce current (a :: l')).map cuts := by
  cases current with
  | none => exact h (some a) (by simpa using ⟨ha, has⟩)
  | some c =>
    obtain ⟨hc, hcs⟩ := hc c rfl
    cases hu : c.union a with
    | none =>
      rw [coalesce_cons_of_union_eq_none hu, coalesce_cons_of_union_eq_none hu, List.map_cons,
        List.map_cons, h (some a) (by simpa using ⟨ha, has⟩)]
    | some merged =>
      simp only [coalesce, hu]
      refine h _ fun i hi => ?_
      obtain ⟨rfl, he⟩ := mem_unless_isEmpty.mp hi
      obtain ⟨_, hmerged⟩ := (union_eq_some_iff hc ha).mp hu
      exact ⟨hc.of_union ha hu he, hmerged ▸ floor_outer_le hcs has⟩

/-- An interval may go in front of those of equal versions that start together with it. -/
theorem cuts_coalesce_middle (hp : ∀ i ∈ before ++ a :: after, i.IsProper)
    (htie : ∀ i ∈ before, i.rank = a.rank ∧ i.start = a.start)
    (hc : ∀ c ∈ current, c.IsProper ∧ c.floor ≤ a.floor) :
    (coalesce current (before ++ a :: after)).map cuts =
      (coalesce current (a :: (before ++ after))).map cuts := by
  induction before generalizing current with
  | nil => rfl
  | cons b before ih =>
    obtain ⟨hb, hp⟩ := List.forall_mem_cons.mp hp
    obtain ⟨⟨hrank, hs⟩, htie⟩ := List.forall_mem_cons.mp htie
    have hfloor : b.floor = a.floor :=
      le_antisymm (floor_le_of_rank_le hrank.le) (floor_le_of_rank_le hrank.ge)
    have hsub : before ++ after ⊆ before ++ a :: after :=
      ((List.sublist_cons_self a after).append_left before).subset
    have hrest : ∀ i ∈ before ++ after, i.IsProper := fun i hi => hp i (hsub hi)
    calc (coalesce current (b :: (before ++ a :: after))).map cuts
        = (coalesce current (b :: a :: (before ++ after))).map cuts :=
          cuts_coalesce_cons hb hfloor.le hc fun _ => ih hp htie
      _ = (coalesce current (a :: b :: (before ++ after))).map cuts :=
          cuts_coalesce_swap hb (hp a (by simp)) hrest hs hrank (by rwa [hfloor])

/-- Sorted lists of the same intervals are merged into the same cuts, if those of equal versions
start together. -/
theorem cuts_coalesce_perm (hperm : l.Perm l') (hp : ∀ i ∈ l, i.IsProper)
    (hl : l.Pairwise (·.rank ≤ ·.rank)) (hl' : l'.Pairwise (·.rank ≤ ·.rank))
    (htie : ∀ a ∈ l, ∀ b ∈ l, a.rank = b.rank → a.start = b.start)
    (hc : ∀ c ∈ current, c.IsProper ∧ ∀ i ∈ l, c.floor ≤ i.floor) :
    (coalesce current l).map cuts = (coalesce current l').map cuts := by
  induction l generalizing l' current with
  | nil => rw [hperm.nil_eq]
  | cons a l ih =>
    obtain ⟨before, after, rfl⟩ := List.append_of_mem (hperm.mem_iff.mp (.head l))
    have hrest : l.Perm (before ++ after) := (hperm.trans List.perm_middle).cons_inv
    have hp' : ∀ i ∈ before ++ a :: after, i.IsProper := fun i hi => hp i (hperm.mem_iff.mpr hi)
    obtain ⟨ha, hp⟩ := List.forall_mem_cons.mp hp
    obtain ⟨hal, hl⟩ := List.pairwise_cons.mp hl
    have hc' : ∀ c ∈ current, c.IsProper ∧ c.floor ≤ a.floor := fun c hi =>
      ⟨(hc c hi).1, (hc c hi).2 a (.head l)⟩
    -- What comes before `a` in the other list does not come after it here, so it ties with `a`.
    have hbefore : ∀ i ∈ before, i.rank = a.rank ∧ i.start = a.start := by
      intro i hi
      have hil : i ∈ l := hrest.mem_iff.mpr (List.mem_append_left after hi)
      have hle : i.rank ≤ a.rank := (List.pairwise_append.mp hl').2.2 i hi a (.head after)
      have hrank : i.rank = a.rank := le_antisymm hle (hal i hil)
      exact ⟨hrank, htie i (.tail a hil) a (.head l) hrank⟩
    have hsub : List.Sublist (before ++ after) (before ++ a :: after) :=
      (List.sublist_cons_self a after).append_left before
    calc (coalesce current (a :: l)).map cuts
        = (coalesce current (a :: (before ++ after))).map cuts := by
          refine cuts_coalesce_cons ha le_rfl hc' fun current hcur => ?_
          refine ih hrest hp hl (hl'.sublist hsub) (fun i hi j hj => ?_) fun c hi => ?_
          · exact htie i (.tail a hi) j (.tail a hj)
          · exact ⟨(hcur c hi).1, fun j hj =>
              (hcur c hi).2.trans (floor_le_of_rank_le (hal j hj))⟩
      _ = (coalesce current (before ++ a :: after)).map cuts :=
          (cuts_coalesce_middle hp' hbefore hc').symm

end Permutation

namespace Range

variable {xs ys : List Interval} {r s : Range} {v : Version}

/-- A range holds what its cuts say. -/
theorem contains_congr (hr : r.IsOrdered) (hs : s.IsOrdered) (hv : v.IsOrdered)
    (h : r.intervals.map cuts = s.intervals.map cuts) : r.contains v = s.contains v := by
  have hiff {r : Range} (hr : r.IsOrdered) : r.contains v = true ↔
      ∃ c ∈ r.intervals.map cuts, c.1 ≤ Cut.before v ∧ Cut.before v < c.2 := by
    simp only [contains_iff, List.mem_map, exists_exists_and_eq_and]
    exact exists_congr fun i => and_congr_right fun hi => Interval.contains_iff (hr i hi) hv
  rw [Bool.eq_iff_iff, hiff hr, hiff hs, h]

theorem pairwise_rank_sorted (h : ∀ i ∈ xs, i.IsOrdered) :
    (stableSort Interval.compare (xs.filter (!·.isEmpty))).Pairwise (·.rank ≤ ·.rank) := by
  have ho : ∀ i ∈ xs.filter (!·.isEmpty), i.IsOrdered := fun i hi => h i (List.mem_of_mem_filter hi)
  apply stableSort_pairwise
  · exact fun a b c => le_trans
  · intro a ha b hb hlt
    have hlt : a.rank < b.rank :=
      (Interval.compares_rank (ho a ha) (ho b hb)).eq_lt.mp (Ordering.isLT_iff_eq_lt.mp hlt)
    exact hlt.le
  · intro a ha b hb hge
    refine (Interval.compares_rank (ho b hb) (ho a ha)).ne_lt.mp fun hlt => ?_
    exact hge (Ordering.isLT_iff_eq_lt.mpr hlt)

/-- Ranges of the same intervals have the same cuts, if those of equal versions start alike. -/
theorem cuts_ofIntervals_perm (hperm : xs.Perm ys) (h : ∀ i ∈ xs, i.IsOrdered)
    (hs : ∀ a ∈ xs, ∀ b ∈ xs, a.TiesAlike b) :
    (ofIntervals xs).intervals.map cuts = (ofIntervals ys).intervals.map cuts := by
  have hsorted : (stableSort Interval.compare (xs.filter (!·.isEmpty))).Perm
      (stableSort Interval.compare (ys.filter (!·.isEmpty))) :=
    (stableSort_perm _ _).trans ((hperm.filter _).trans (stableSort_perm _ _).symm)
  refine cuts_coalesce_perm hsorted (fun i hi => ?_) (pairwise_rank_sorted h)
    (pairwise_rank_sorted fun i hi => h i (hperm.mem_iff.mpr hi)) (fun a ha b hb hrank => ?_)
    (by simp)
  · obtain ⟨hi, he⟩ := mem_sorted_iff.mp hi
    exact ⟨h i hi, he⟩
  · obtain ⟨ha, hea⟩ := mem_sorted_iff.mp ha
    obtain ⟨hb, heb⟩ := mem_sorted_iff.mp hb
    have heq := (Interval.compares_rank (h a ha) (h b hb)).eq_eq.mpr hrank
    have halike := hs a ha b hb hea heb heq
    have hab : a.start ≤ b.start :=
      halike.start_le (h a ha) (h b hb) (Interval.floor_le_of_rank_le hrank.le)
    have hba : b.start ≤ a.start :=
      (Std.Symm.symm a b halike).start_le (h b hb) (h a ha) (Interval.floor_le_of_rank_le hrank.ge)
    exact le_antisymm hab hba

theorem contains_ofIntervals_perm (hperm : xs.Perm ys) (h : ∀ i ∈ xs, i.IsOrdered)
    (hs : ∀ a ∈ xs, ∀ b ∈ xs, a.TiesAlike b) (hv : v.IsOrdered) :
    (ofIntervals xs).contains v = (ofIntervals ys).contains v :=
  contains_congr (isOrdered_ofIntervals h)
    (isOrdered_ofIntervals fun i hi => h i (hperm.mem_iff.mpr hi)) hv
    (cuts_ofIntervals_perm hperm h hs)

theorem contains_ofOptional_perm {xs ys : List (Option Interval)} (hperm : xs.Perm ys)
    (h : ∀ o ∈ xs, ∀ i ∈ o, i.IsOrdered)
    (hs : ∀ o ∈ xs, ∀ a ∈ o, ∀ o' ∈ xs, ∀ b ∈ o', a.TiesAlike b) (hv : v.IsOrdered) :
    (ofOptional xs).contains v = (ofOptional ys).contains v := by
  have hmem (i : Interval) : i ∈ xs.filterMap id ↔ some i ∈ xs := by simp
  refine contains_ofIntervals_perm (hperm.filterMap id) (isOrdered_of_mem_filterMap h) ?_ hv
  intro a ha b hb
  exact hs (some a) ((hmem a).mp ha) a rfl (some b) ((hmem b).mp hb) b rfl

theorem contains_union_comm (hx : ∀ i ∈ xs, i.IsOrdered) (hy : ∀ i ∈ ys, i.IsOrdered)
    (hs : ∀ a ∈ (ofIntervals xs).intervals, ∀ b ∈ (ofIntervals ys).intervals, a.TiesAlike b)
    (hv : v.IsOrdered) : ((ofIntervals xs).union (ofIntervals ys)).contains v =
      ((ofIntervals ys).union (ofIntervals xs)).contains v := by
  refine contains_ofIntervals_perm List.perm_append_comm ?_ ?_ hv
  · exact List.forall_mem_append.mpr ⟨isOrdered_ofIntervals hx, isOrdered_ofIntervals hy⟩
  · -- Within one range no two intervals start at equal versions.
    intro a ha b hb hea heb heq
    rcases List.mem_append.mp ha with ha | ha <;> rcases List.mem_append.mp hb with hb | hb
    · exact startsAlike_ofIntervals hx a ha b hb
    · exact hs a ha b hb hea heb heq
    · have hba : b.compare a = .eq := Std.OrientedCmp.eq_symm heq
      exact Std.Symm.symm b a (hs b hb a ha heb hea hba)
    · exact startsAlike_ofIntervals hy a ha b hb

section Constraints

variable {cs ds : List (Operator × Version)}

theorem contains_ofConstraints_perm (hperm : cs.Perm ds) (h : ∀ c ∈ cs, c.2.IsOrdered)
    (hs : StartAlike cs) (hv : v.IsOrdered) :
    (ofConstraints cs).contains v = (ofConstraints ds).contains v := by
  have hmem (c) : c ∈ ds ↔ c ∈ cs := hperm.mem_iff.symm
  have h' : ∀ c ∈ ds, c.2.IsOrdered := fun c hc => h c ((hmem c).mp hc)
  have hs' : StartAlike ds := fun c hc d hd => hs c ((hmem c).mp hc) d ((hmem d).mp hd)
  have hadmitted : (admitted cs).Perm (admitted ds) := hperm.filterMap _
  have hexcluded : (excluded cs).Perm (excluded ds) := hperm.filterMap _
  have hbefore : (beforeExclusions cs).contains v = (beforeExclusions ds).contains v := by
    unfold beforeExclusions
    rw [hadmitted.isEmpty_eq, hexcluded.isEmpty_eq]
    split
    · exact contains_ofIntervals_perm hadmitted (admitted_isOrdered h)
        (fun a ha b hb _ _ _ => admitted_startsAlike hs a ha b hb) hv
    · rfl
  rw [Bool.eq_iff_iff, contains_ofConstraints_iff h hs hv, contains_ofConstraints_iff h' hs' hv,
    hbefore]
  exact and_congr_right fun _ => forall_congr' fun u => by rw [hexcluded.mem_iff]

end Constraints

theorem exists_run_build_perm {cs ds : List Constraint} (hperm : cs.Perm ds)
    (h : ∀ c ∈ cs, ∀ v ∈ (Version.parse c.version).toOption, v.IsOrdered)
    (hs : ∀ c ∈ cs, ∀ d ∈ cs, ∀ u ∈ (Version.parse c.version).toOption,
      ∀ v ∈ (Version.parse d.version).toOption, u.same v = true → c.operator = .greater →
        d.operator ≠ .equal ∧ d.operator ≠ .greaterEqual)
    (hv : v.IsOrdered) (hr : (build cs).run = .ok r) :
    ∃ s, (build ds).run = .ok s ∧ r.contains v = s.contains v := by
  obtain ⟨rs, hrs, rfl⟩ := run_build_eq_ok_iff.mp hr
  obtain ⟨rs', hrs', hperm'⟩ := List.perm_comp_forall₂ hperm.symm hrs
  refine ⟨_, run_build_eq_ok_iff.mpr ⟨rs', hrs', rfl⟩, ?_⟩
  refine contains_ofConstraints_perm hperm'.symm (fun x hx => ?_) (fun x hx y hy => ?_) hv
  · obtain ⟨c, hc, _, hcx⟩ := exists_left_of_forall₂ hrs hx
    exact h c hc x.2 (by rw [hcx]; rfl)
  · obtain ⟨c, hc, hop, hcx⟩ := exists_left_of_forall₂ hrs hx
    obtain ⟨d, hd, hop', hdy⟩ := exists_left_of_forall₂ hrs hy
    rw [← hop, ← hop']
    exact hs c hc d hd x.2 (by rw [hcx]; rfl) y.2 (by rw [hdy]; rfl)

/-- The order in which intervals, ranges or constraints come does not matter, as long as it does not
decide between intervals of equal versions that start differently: among constraints, between a `>`
and a `=` or `>=` of an equal version. -/
theorem contains_rearranged (hv : v.IsOrdered) :
    (∀ xs ys : List (Option Interval), xs.Perm ys → (∀ o ∈ xs, ∀ i ∈ o, i.IsOrdered) →
      (∀ o ∈ xs, ∀ a ∈ o, ∀ o' ∈ xs, ∀ b ∈ o', a.TiesAlike b) →
        (ofOptional xs).contains v = (ofOptional ys).contains v) ∧
    (∀ xs ys : List (Option Interval), (∀ o ∈ xs, ∀ i ∈ o, i.IsOrdered) →
      (∀ o ∈ ys, ∀ i ∈ o, i.IsOrdered) →
      (∀ a ∈ (ofOptional xs).intervals, ∀ b ∈ (ofOptional ys).intervals, a.TiesAlike b) →
        ((ofOptional xs).union (ofOptional ys)).contains v =
          ((ofOptional ys).union (ofOptional xs)).contains v) ∧
    (∀ cs ds : List Constraint, cs.Perm ds →
      (∀ c ∈ cs, ∀ v ∈ (Version.parse c.version).toOption, v.IsOrdered) →
      (∀ c ∈ cs, ∀ d ∈ cs, ∀ u ∈ (Version.parse c.version).toOption,
        ∀ v ∈ (Version.parse d.version).toOption, u.same v = true → c.operator = .greater →
          d.operator ≠ .equal ∧ d.operator ≠ .greaterEqual) →
      ∀ r, (build cs).run = .ok r →
        ∃ s, (build ds).run = .ok s ∧ r.contains v = s.contains v) := by
  refine ⟨?intervals, ?union, ?constraints⟩
  case intervals =>
    intro xs ys hperm h hs
    exact contains_ofOptional_perm hperm h hs hv
  case union =>
    intro xs ys hx hy hs
    exact contains_union_comm (isOrdered_of_mem_filterMap hx) (isOrdered_of_mem_filterMap hy) hs hv
  case constraints =>
    intro cs ds hperm h hs r hr
    exact exists_run_build_perm hperm h hs hv hr

/-- Intervals that differ in their upper flags alone may come in any order, and so may
exclusions. -/
theorem contains_rearranged_upper_flags :
    let v (major : Int) : Version := .ofComponents { major }
    let xs := [some (.below (v 1) false), some ⟨⟨v 1, false⟩, ⟨v 2, false⟩⟩, none,
      some ⟨⟨v 1, false⟩, ⟨v 2, true⟩⟩]
    let cs : List Constraint := [⟨.greater, "1"⟩, ⟨.notEqual, "3"⟩, ⟨.less, "1"⟩, ⟨.notEqual, "0"⟩]
    ((∀ o ∈ xs, ∀ i ∈ o, i.IsOrdered) ∧ (v 2).IsOrdered) ∧
      (ofOptional xs).contains (v 2) = (ofOptional xs.reverse).contains (v 2) ∧
      ((ofOptional xs).union (ofOptional xs.tail)).contains (v 2) =
        ((ofOptional xs.tail).union (ofOptional xs)).contains (v 2) ∧
      ∃ r s, (build cs).run = .ok r ∧ (build cs.reverse).run = .ok s ∧
        r.contains (v 2) = s.contains (v 2) := by
  intro v xs cs
  have h : ∀ o ∈ xs, ∀ i ∈ o, i.IsOrdered := by decide +kernel
  have hv : (v 2).IsOrdered := by decide +kernel
  have hok : (build cs).run.isOk = true := by decide +kernel
  refine ⟨⟨h, hv⟩, ?_, ?_, ?_⟩
  · exact (contains_rearranged hv).1 xs xs.reverse (List.reverse_perm xs).symm h (by decide +kernel)
  · exact (contains_rearranged hv).2.1 xs xs.tail h (by decide +kernel) (by decide +kernel)
  · cases hr : (build cs).run with
    | error e =>
      rw [hr] at hok
      cases hok
    | ok r =>
      obtain ⟨s, hs, hrs⟩ := (contains_rearranged hv).2.2 cs cs.reverse (List.reverse_perm cs).symm
        (by decide +kernel) (by decide +kernel) r hr
      exact ⟨r, s, rfl, hs, hrs⟩

/-- Whether `(1,2)` or `[1,2)` comes first decides whether `(-∞,1)` is merged away.  So it is with
the union of two ranges, and with `>1` and `>=1` beside `<1`. -/
theorem exists_contains_rearranged_ne :
    let v (major : Int) : Version := .ofComponents { major }
    let ray : Interval := .below (v 1) false
    let closed : Interval := ⟨⟨v 1, true⟩, ⟨v 2, false⟩⟩
    let half : Interval := ⟨⟨v 1, false⟩, ⟨v 2, false⟩⟩
    let r := ofIntervals [ray, half]
    let s := ofIntervals [closed]
    let built (cs : List Constraint) := ((build cs).run.map (·.contains (v 0))).toOption
    ((ofIntervals [ray, half, closed]).contains (v 0) = true ∧
        (ofIntervals [ray, closed, half]).contains (v 0) = false) ∧
      ((r.union s).contains (v 0) = true ∧ (s.union r).contains (v 0) = false) ∧
      built [⟨.less, "1"⟩, ⟨.greater, "1"⟩, ⟨.greaterEqual, "1"⟩] = some true ∧
        built [⟨.less, "1"⟩, ⟨.greaterEqual, "1"⟩, ⟨.greater, "1"⟩] = some false := by
  decide +kernel

end Range

end Versioning
