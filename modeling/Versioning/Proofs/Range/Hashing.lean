import Mathlib.Data.Set.Card
import Versioning.Proofs.Range.Equality

/-! Hash tables of versions.  What is hashed of a version is normalized, so that it is the same for
equal versions, and for no others.  Hence a table, which compares a new version with those of its
hash alone, keeps one version of each class of equal ones, whatever the hash function; and the
hashes of equal intervals and of equal ranges are equal, too. -/

namespace Versioning

section Distinct

variable {α : Type} [DecidableEq α]

theorem eraseDups_append_singleton (as : List α) (a : α) :
    (as ++ [a]).eraseDups = if a ∈ as then as.eraseDups else as.eraseDups ++ [a] := by
  rw [List.eraseDups_append, List.removeAll, List.filter_singleton]
  split <;> simp_all [List.eraseDups_cons]

theorem nodup_eraseDups (as : List α) : as.eraseDups.Nodup := by
  induction as using List.reverseRecOn with
  | nil => exact List.nodup_nil
  | append_singleton as a ih =>
    rw [eraseDups_append_singleton]
    split
    next => exact ih
    next ha =>
      rw [← List.concat_eq_append]
      exact ih.concat (mt List.mem_eraseDups.mp ha)

end Distinct

/-! ### Tables -/

section Table

variable {α κ H : Type} [DecidableEq H] (hash : α → H) (same : α → α → Bool)

/-- Whether the table finds the value: at a member of its hash that is equal to it. -/
def isMember (members : List α) (a : α) : Bool := members.any fun b => hash b == hash a && same b a

/-- A value is added unless the table finds it. -/
def insertNew (members : List α) (a : α) : List α :=
  if isMember hash same members a then members else members ++ [a]

/-- The members of a table into which the values were put one by one. -/
def tableOf (values : List α) : List α := values.foldl (insertNew hash same) []

variable {hash same} {key : α → κ} {members values : List α} {a : α}

/-- Where equal values have equal hashes, looking at those of one hash alone misses none. -/
theorem isMember_iff (hhash : ∀ a b, same a b = true → hash a = hash b) :
    isMember hash same members a = true ↔ ∃ b ∈ members, same b a = true := by
  simp only [isMember, List.any_eq_true, Bool.and_eq_true, beq_iff_eq]
  exact exists_congr fun b => and_congr_right fun _ => and_iff_right_of_imp (hhash b a)

variable [DecidableEq κ] (hkey : ∀ a b, same a b = true ↔ key a = key b)
  (hhash : ∀ a b, same a b = true → hash a = hash b)

include hkey hhash

/-- The members have the keys of the values, in order and once each. -/
theorem map_key_tableOf (values : List α) :
    (tableOf hash same values).map key = (values.map key).eraseDups := by
  induction values using List.reverseRecOn with
  | nil => rfl
  | append_singleton values a ih =>
    have hmember :
        isMember hash same (tableOf hash same values) a = true ↔ key a ∈ values.map key := by
      rw [isMember_iff hhash, ← List.mem_eraseDups, ← ih, List.mem_map]
      simp only [hkey]
    have htable : tableOf hash same (values ++ [a]) =
        insertNew hash same (tableOf hash same values) a := List.foldl_concat ..
    rw [htable, insertNew, List.map_append, List.map_singleton, eraseDups_append_singleton]
    by_cases h : key a ∈ values.map key
    · rw [if_pos (hmember.mpr h), if_pos h, ih]
    · rw [if_neg (mt hmember.mp h), if_neg h, List.map_append, ih, List.map_singleton]

/-- The table finds a value just if one equal to it was put in. -/
theorem isMember_tableOf_iff :
    isMember hash same (tableOf hash same values) a = true ↔ ∃ b ∈ values, same b a = true := by
  rw [isMember_iff hhash]
  simp only [hkey]
  rw [← List.mem_map, map_key_tableOf hkey hhash, List.mem_eraseDups, List.mem_map]

theorem length_tableOf (values : List α) :
    (tableOf hash same values).length = (values.map key).eraseDups.length := by
  rw [← map_key_tableOf hkey hhash, List.length_map]

end Table

/-! ### Hashes -/

/-- How versions, intervals and ranges are hashed: by functions of tuples, with the hashes of parts
in them.  Nothing is asked of the functions; different tuples may have one hash. -/
structure Hashing (H : Type) where
  version : Release × Bool × List Identifier.Key → H
  interval : Option H × Option H × Bool × Bool → H
  range : List H → H

variable {H : Type} (hashing : Hashing H)

namespace Version

variable {a b : Version}

/-- What is hashed of a version: its release, whether it is that release itself, and its
identifiers, with numbers in place of their digits. -/
def hashed (v : Version) : Release × Bool × List Identifier.Key :=
  (v.release, v.prerelease.isNone, (v.identifiers.map (·.map Identifier.key)).getD [])

def hash (v : Version) : H := hashing.version v.hashed

/-- The flag tells a version without a prerelease from one without identifiers. -/
theorem hashed_eq_iff_key_eq : a.hashed = b.hashed ↔ a.key = b.key := by
  rw [hashed, hashed, key, key, Key.mk.injEq, Prod.mk.injEq, Prod.mk.injEq]
  refine and_congr_right fun _ => ?_
  cases ha : a.prerelease <;> cases hb : b.prerelease <;> simp [Components.identifiers, ha, hb]

theorem same_iff_hashed_eq : a.same b = true ↔ a.hashed = b.hashed :=
  same_iff_key_eq.trans hashed_eq_iff_key_eq.symm

theorem hash_eq_of_same (h : a.same b = true) : a.hash hashing = b.hash hashing :=
  congrArg hashing.version (same_iff_hashed_eq.mp h)

theorem same_equivalence : Equivalence fun a b : Version => a.same b = true where
  refl := same_refl
  symm := fun h => same_comm ▸ h
  trans := same_trans

/-- The versions that are equal to the given one. -/
def classOf (v : Version) : Quotient ⟨_, same_equivalence⟩ := Quotient.mk _ v

/-- There are as many classes as keys. -/
theorem ncard_classOf (versions : List Version) :
    {c | ∃ v ∈ versions, v.classOf = c}.ncard = countDistinct versions := by
  let keyOf (c : Quotient ⟨_, same_equivalence⟩) : Key :=
    c.lift key fun _ _ h => same_iff_key_eq.mp h
  have hinjective : Function.Injective keyOf := by
    refine fun c d => Quotient.inductionOn₂ c d fun a b h => ?_
    exact Quotient.sound (same_iff_key_eq.mpr h)
  have himage : keyOf '' {c | ∃ v ∈ versions, v.classOf = c} =
      {k | k ∈ (versions.map key).eraseDups} := by
    ext k
    simp only [Set.mem_image, Set.mem_ofPred_eq, List.mem_eraseDups, List.mem_map]
    constructor
    · rintro ⟨_, ⟨v, hv, rfl⟩, rfl⟩
      exact ⟨v, hv, rfl⟩
    · rintro ⟨v, hv, rfl⟩
      exact ⟨v.classOf, ⟨v, hv, rfl⟩, rfl⟩
  rw [← Set.ncard_image_of_injective _ hinjective, himage, ← List.coe_toFinset,
    Set.ncard_coe_finset, List.toFinset_card_of_nodup (nodup_eraseDups _), countDistinct]

end Version

/-- Equal bounds have equal flags, and no other hashes in the place of their versions. -/
theorem Bound.hash_eq_of_same {a b : Bound} (h : a.same b = true) :
    a.version.map (Version.hash hashing) = b.version.map (Version.hash hashing) ∧
      a.inclusive = b.inclusive := by
  obtain ⟨hversion, hflag⟩ := Prod.mk.inj (same_iff_key_eq.mp h)
  refine ⟨?_, hflag⟩
  obtain ⟨_ | u, f⟩ := a <;> obtain ⟨_ | w, g⟩ := b
  case none.none => rfl
  case none.some | some.none => cases hversion
  case some.some =>
    have hsame : u.same w = true := Version.same_iff_key_eq.mpr (Option.some.inj hversion)
    exact congrArg some (Version.hash_eq_of_same hashing hsame)

def Interval.hash (i : Interval) : H :=
  hashing.interval (i.lower.version.map (Version.hash hashing),
    i.upper.version.map (Version.hash hashing), i.lower.inclusive, i.upper.inclusive)

theorem Interval.hash_eq_of_same {i j : Interval} (h : i.same j = true) :
    i.hash hashing = j.hash hashing := by
  obtain ⟨hlower, hupper⟩ := (Bool.and_eq_true _ _).mp h
  obtain ⟨hmin, hminFlag⟩ := Bound.hash_eq_of_same hashing hlower
  obtain ⟨hmax, hmaxFlag⟩ := Bound.hash_eq_of_same hashing hupper
  rw [hash, hash, hmin, hmax, hminFlag, hmaxFlag]

def Range.hash (r : Range) : H := hashing.range (r.intervals.map (Interval.hash hashing))

theorem Range.hash_eq_of_same {r s : Range} (h : r.same s = true) :
    r.hash hashing = s.hash hashing := by
  refine congrArg hashing.range ?_
  rw [← List.forall₂_eq_eq_eq, List.forall₂_map_left_iff, List.forall₂_map_right_iff]
  exact (same_iff.mp h).imp fun _ _ hij => Interval.hash_eq_of_same hashing hij

/-- Versions are equal just if what is hashed of them is equal.  So equality is an equivalence, a
table of versions has one member for each class of them, in which it finds all that are equal to
one put in, and equal intervals and equal ranges have equal hashes. -/
theorem Hashing.respects_same [DecidableEq H] :
    (∀ a b : Version, a.same b = true ↔ a.hashed = b.hashed) ∧
    Equivalence (fun a b : Version => a.same b = true) ∧
    (∀ versions : List Version,
      let table := tableOf (Version.hash hashing) Version.same versions
      table.length = {c | ∃ v ∈ versions, v.classOf = c}.ncard ∧
      table.length = Version.countDistinct versions ∧
      ∀ v, isMember (Version.hash hashing) Version.same table v = true ↔
        ∃ u ∈ versions, u.same v = true) ∧
    (∀ i j : Interval, i.same j = true → i.hash hashing = j.hash hashing) ∧
    ∀ r s : Range, r.same s = true → r.hash hashing = s.hash hashing := by
  refine ⟨fun _ _ => Version.same_iff_hashed_eq, Version.same_equivalence, fun versions => ?table,
    fun _ _ => Interval.hash_eq_of_same hashing, fun _ _ => Range.hash_eq_of_same hashing⟩
  have hkey (a b : Version) : a.same b = true ↔ a.key = b.key := Version.same_iff_key_eq
  have hhash (a b : Version) := @Version.hash_eq_of_same H hashing a b
  have hlength := length_tableOf hkey hhash versions
  exact ⟨hlength.trans (Version.ncard_classOf versions).symm, hlength,
    fun v => isMember_tableOf_iff hkey hhash⟩

/-- Where only the major number of a version is hashed, a table takes `1.0.0-rc.01` and `1-rc.1` for
one version and `1.0.0` for another. -/
theorem Hashing.respects_same_colliding :
    let hashing : Hashing Int :=
      ⟨fun hashed => hashed.1.major, fun bounds => bounds.1.getD 0, List.sum⟩
    let long : Version :=
      .ofComponents { major := 1, minor := some 0, patch := some 0, prerelease := some "rc.01" }
    let short : Version := .ofComponents { major := 1, prerelease := some "rc.1" }
    let release : Version := .ofComponents { major := 1, minor := some 0, patch := some 0 }
    let versions := [long, release, short]
    long.hashed = short.hashed ∧ release.hash hashing = short.hash hashing ∧
      (tableOf (Version.hash hashing) Version.same versions).length = 2 ∧
      {c | ∃ v ∈ versions, v.classOf = c}.ncard = 2 ∧
      (Interval.exact long).hash hashing = (Interval.exact short).hash hashing ∧
      (Range.exact long).hash hashing = (Range.exact short).hash hashing := by
  intro hashing long short release versions
  obtain ⟨hsame, -, htable, hinterval, hrange⟩ := respects_same hashing
  have hlength : (tableOf (Version.hash hashing) Version.same versions).length = 2 := by
    decide +kernel
  exact ⟨(hsame long short).mp (by decide +kernel), by decide +kernel, hlength,
    (htable versions).1.symm.trans hlength, hinterval _ _ (by decide +kernel),
    hrange _ _ (by decide +kernel)⟩

end Versioning
