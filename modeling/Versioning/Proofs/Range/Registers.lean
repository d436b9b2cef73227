import Versioning.Proofs.Range.Complement
import Versioning.Proofs.Range.Exclusion
import Versioning.Proofs.Range.Renormalization

/-! Computations on ranges in registers that intersect them, complement them and take versions out,
but never unite two.  A range of one interval is settled: each of its intervals stops before the
next one starts.  The pieces that an operation computes from settled ranges are apart, so its result
is settled too, and so is whatever a register ever holds.  All of this is about ordered versions;
taking out one that is not may leave intervals that overlap. -/

namespace Versioning.Range

/-- The intervals hold something, and each stops before those after it start. -/
structure IsSettled (r : Range) : Prop where
  proper : ∀ i ∈ r.intervals, i.IsProper
  pairwise : r.intervals.Pairwise (·.stop < ·.start)

variable {intervals : List Interval} {r s : Range} {v : Version}

theorem isSettled_ofIntervals (h : ∀ i ∈ intervals, i.IsOrdered)
    (hp : intervals.Pairwise Interval.Apart) : (ofIntervals intervals).IsSettled := by
  have hproper := isProper_ofIntervals h
  refine ⟨hproper, ((isSeparated_ofIntervals h hp).and (pairwise_ofIntervals h)).imp_of_mem
    fun {a b} ha hb ⟨hab, hle⟩ => ?_⟩
  have hcuts := (Interval.apart_iff (hproper a ha).ordered (hproper b hb).ordered).mp hab
    (hproper a ha).nonempty (hproper b hb).nonempty
  -- The intervals ascend, so the later one does not stop before the earlier one starts.
  refine hcuts.resolve_right fun hba => ?_
  have hsa : a.start < a.stop := (hproper a ha).start_lt_stop
  have hsb : b.start < b.stop := (hproper b hb).start_lt_stop
  have hfloor : b.floor ≤ b.start := Interval.floor_le_start
  order

namespace IsSettled

theorem isOrdered (h : r.IsSettled) : r.IsOrdered := fun i hi => (h.proper i hi).ordered

theorem isSeparated (h : r.IsSettled) : r.IsSeparated :=
  h.pairwise.imp_of_mem fun {a b} ha hb hlt =>
    Interval.apart_of_stop_lt_start (h.isOrdered a ha) (h.isOrdered b hb) hlt

theorem isFixpoint (h : r.IsSettled) : r.IsFixpoint := .of_pairwise h.proper h.pairwise

theorem inter (hr : r.IsSettled) (hs : s.IsSettled) : (r.inter s).IsSettled :=
  isSettled_ofIntervals (isOrdered_pieces hr.isOrdered hs.isOrdered)
    (pairwise_pieces hr.isOrdered hs.isOrdered hr.isSeparated hs.isSeparated)

theorem compl (h : r.IsSettled) : r.compl.IsSettled := by
  have hascends : Ascends r.intervals := ⟨h.proper, h.pairwise.imp fun hlt => hlt.le⟩
  rw [compl_eq]
  exact isSettled_ofIntervals (isOrdered_gaps hascends) (apart_gaps hascends)

theorem exclude (h : r.IsSettled) (hv : v.IsOrdered) : (r.exclude v).IsSettled := by
  unfold Range.exclude
  split
  · exact isSettled_ofIntervals (isOrdered_without h.isOrdered hv)
      (pairwise_without h.isOrdered hv h.isSeparated)
  · exact h

end IsSettled

/-! ### Runs -/

/-- The ranges that a register may hold at first: none of them has more than one interval. -/
inductive IsSeed : Range → Prop where
  | empty : IsSeed .empty
  | unbounded : IsSeed .unbounded
  | exact {v : Version} (h : v.IsOrdered) : IsSeed (.exact v)
  | above {v : Version} (h : v.IsOrdered) (inclusive : Bool) : IsSeed (.above v inclusive)
  | below {v : Version} (h : v.IsOrdered) (inclusive : Bool) : IsSeed (.below v inclusive)
  | interval {i : Interval} (h : i.IsOrdered) : IsSeed (.ofInterval i)

theorem IsSeed.isSettled (h : IsSeed r) : r.IsSettled := by
  have hsingle {i : Interval} (hi : i.IsOrdered) : (ofInterval i).IsSettled :=
    isSettled_ofIntervals (List.forall_mem_singleton.mpr hi) (List.pairwise_singleton _ i)
  have hnone : Bound.IsOrdered {} := by simp [Bound.IsOrdered]
  have hsome {v : Version} (hv : v.IsOrdered) (f : Bool) : Bound.IsOrdered ⟨some v, f⟩ := by
    simpa [Bound.IsOrdered] using hv
  cases h with
  | empty => exact ⟨List.forall_mem_nil _, List.Pairwise.nil⟩
  | unbounded => exact hsingle ⟨hnone, hnone⟩
  | exact hv => exact hsingle ⟨hsome hv true, hsome hv true⟩
  | above hv inclusive => exact hsingle ⟨hsome hv inclusive, hnone⟩
  | below hv inclusive => exact hsingle ⟨hnone, hsome hv inclusive⟩
  | interval hi => exact hsingle hi

/-- What may be done with the ranges of registers: the result goes into the first of them. -/
inductive Operation (Register : Type) where
  | inter (target a b : Register)
  | compl (target a : Register)
  | exclude (target a : Register) (v : Version)

namespace Operation

variable {Register : Type}

def target : Operation Register → Register
  | inter target _ _ => target
  | compl target _ => target
  | exclude target _ _ => target

def result (registers : Register → Range) : Operation Register → Range
  | inter _ a b => (registers a).inter (registers b)
  | compl _ a => (registers a).compl
  | exclude _ a v => (registers a).exclude v

/-- The version that the operation takes out. -/
def excluded? : Operation Register → Option Version
  | exclude _ _ v => some v
  | _ => none

variable [DecidableEq Register]

def step (registers : Register → Range) (op : Operation Register) : Register → Range :=
  fun x => if x = op.target then op.result registers else registers x

/-- What the registers hold after the operations. -/
def run (registers : Register → Range) (ops : List (Operation Register)) : Register → Range :=
  ops.foldl step registers

variable {registers : Register → Range} {op : Operation Register}
  {ops : List (Operation Register)}

theorem isSettled_step (h : ∀ x, (registers x).IsSettled) (hop : ∀ v ∈ op.excluded?, v.IsOrdered)
    (x : Register) : (op.step registers x).IsSettled := by
  unfold step
  split
  · cases op with
    | inter _ a b => exact (h a).inter (h b)
    | compl _ a => exact (h a).compl
    | exclude _ a v => exact (h a).exclude (hop v rfl)
  · exact h x

theorem isSettled_run (h : ∀ x, (registers x).IsSettled)
    (hops : ∀ op ∈ ops, ∀ v ∈ op.excluded?, v.IsOrdered) (x : Register) :
    (run registers ops x).IsSettled := by
  induction ops generalizing registers with
  | nil => exact h x
  | cons op ops ih =>
    obtain ⟨hop, hops⟩ := List.forall_mem_cons.mp hops
    exact ih (isSettled_step h hop) hops

/-- After any operations without a union, the intervals in each register neither overlap nor are
adjacent, and the range stays as it is when it is made anew. -/
theorem isFixpoint_run (h : ∀ x, IsSeed (registers x))
    (hops : ∀ op ∈ ops, ∀ v ∈ op.excluded?, v.IsOrdered) (x : Register) :
    (run registers ops x).IsSeparated ∧ (run registers ops x).IsFixpoint := by
  have hsettled := isSettled_run (fun x => (h x).isSettled) hops x
  exact ⟨hsettled.isSeparated, hsettled.isFixpoint⟩

/-- The gap around a single version meets the two pieces that another version leaves. -/
theorem isFixpoint_run_pieces :
    let v (major : Int) : Version := .ofComponents { major }
    let rc : Version := .ofComponents { major := 2, prerelease := some "rc.1" }
    let registers : Bool → Range := fun x => if x then .exact (v 2) else .above (v 1) false
    let ops : List (Operation Bool) := [.compl true true, .exclude false false rc,
      .inter true true false, .exclude true true (v 3), .compl false true]
    (∀ x, IsSeed (registers x)) ∧ (∀ op ∈ ops, ∀ v ∈ op.excluded?, v.IsOrdered) ∧
      (run registers ops false).IsSeparated ∧ (run registers ops false).IsFixpoint := by
  intro v rc registers ops
  have hv (major : Int) : (v major).IsOrdered := by simp [Version.IsOrdered, v,
    Version.ofComponents, Components.identifiers]
  have h : ∀ x, IsSeed (registers x) := by
    intro x
    cases x with
    | true => exact .exact (hv 2)
    | false => exact .above (hv 1) false
  have hops : ∀ op ∈ ops, ∀ v ∈ op.excluded?, v.IsOrdered := by decide +kernel
  exact ⟨h, hops, isFixpoint_run h hops false⟩

/-- `1.0.0-2a` lies below `1.0.0-3` as well as above `1.0.0-20`.  Where it is taken out, two
intervals that were apart are cut at once, and of the intervals that are made of the pieces two
overlap. -/
theorem exists_run_not_isFixpoint :
    let v (identifier : String) : Version :=
      .ofComponents { major := 1, minor := some 0, patch := some 0, prerelease := some identifier }
    let registers : Unit → Range := fun _ => .ofInterval ⟨⟨v "5", false⟩, ⟨v "20", false⟩⟩
    let ops : List (Operation Unit) :=
      [.compl () (), .exclude () () (v "3"), .exclude () () (v "2a")]
    (∀ x, IsSeed (registers x)) ∧ ¬(run registers ops ()).IsSeparated ∧
      ofIntervals (run registers ops ()).intervals ≠ run registers ops () :=
  ⟨fun _ => .interval (by decide +kernel), by decide +kernel, by decide +kernel⟩

end Operation

end Versioning.Range
