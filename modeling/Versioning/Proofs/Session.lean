import Versioning.Proofs.Lookup
import Versioning.Session

/-! A cache never shows in a reply.  Every use of it, whichever computation it comes from, is a
lookup or that the entries are forgotten.  What one such use keeps is kept by a whole session, also
where a computation stops in the middle. -/

namespace Versioning

namespace Cache

variable {c : Cache} {text : String}

/-- One use of a cache. -/
inductive Access where
  | get (text : String)
  | clear
deriving DecidableEq

/-- That the access is a lookup of a text that shows a version. -/
def Access.finds : Access → Bool
  | get text => (Version.parse text).isOk
  | clear => false

/-- The cache after one access. -/
def step (c : Cache) : Access → Cache
  | .get text => (c.get text).2
  | .clear => c.clear

theorem step_get (c : Cache) (text : String) : c.step (.get text) = (c.get text).2 := rfl

/-- Each entry is what reading its own text gives, and there is at most one for each text and no
more than the cache has room for. -/
structure IsSound (c : Cache) : Prop where
  parse_eq : ∀ entry ∈ c.entries, Version.parse entry.1 = .ok entry.2
  nodup : (c.entries.map Prod.fst).Nodup
  size_le : c.size ≤ c.capacity

/-! ### One access -/

/-- Everything that a lookup can do. -/
theorem get_cases (c : Cache) (text : String) :
    (∃ v, (text, v) ∈ c.entries ∧ c.get text = (.ok v, { c with hits := c.hits + 1 })) ∨
    (∃ v, text ∉ c.entries.map Prod.fst ∧ Version.parse text = .ok v ∧
      c.get text = (.ok v, c.insert text v)) ∨
    (∃ e, Version.parse text = .error e ∧ c.get text = (.error e, c)) := by
  unfold get
  cases hentry : c.entries.lookup text with
  | some v =>
    obtain ⟨before, after, hentries, -⟩ := List.lookup_eq_some_iff.mp hentry
    exact .inl ⟨v, by simp [hentries], rfl⟩
  | none =>
    have hnew : text ∉ c.entries.map Prod.fst := by
      rw [List.mem_map]
      rintro ⟨entry, hmem, rfl⟩
      simpa using List.lookup_eq_none_iff.mp hentry entry hmem
    cases hparse : Version.parse text with
    | ok v => exact .inr (.inl ⟨v, hnew, rfl, rfl⟩)
    | error e => exact .inr (.inr ⟨e, rfl, rfl⟩)

theorem IsSound.get_fst (h : c.IsSound) (text : String) :
    (c.get text).1 = Version.parse text := by
  obtain ⟨v, hmem, hget⟩ | ⟨v, -, hparse, hget⟩ | ⟨e, hparse, hget⟩ := c.get_cases text
  · rw [hget, h.parse_eq (text, v) hmem]
  · rw [hget, hparse]
  · rw [hget, hparse]

theorem IsSound.get_of_parse_eq_error (h : c.IsSound) {e : FormatError}
    (he : Version.parse text = .error e) : c.get text = (.error e, c) := by
  obtain ⟨v, hmem, -⟩ | ⟨v, -, hparse, -⟩ | ⟨e', hparse, hget⟩ := c.get_cases text
  · rw [h.parse_eq (text, v) hmem] at he
    cases he
  · rw [hparse] at he
    cases he
  · rw [hparse] at he
    rw [hget, Except.error.inj he]

theorem isSound_clear (c : Cache) : c.clear.IsSound where
  parse_eq := List.forall_mem_nil _
  nodup := .nil
  size_le := Nat.zero_le _

/-- A new cache has room for as many entries as were requested, and nothing is in it. -/
theorem exists_ofCapacity {requested : Int} (h : 1 ≤ requested) :
    ∃ c, ofCapacity requested = .ok c ∧ c.IsSound ∧ (c.capacity : Int) = requested ∧
      c.hits + c.misses = 0 := by
  refine ⟨{ capacity := requested.toNat, capacity_pos := by omega }, dif_pos h, ?_, ?_, rfl⟩
  · exact ⟨List.forall_mem_nil _, .nil, Nat.zero_le _⟩
  · exact Int.toNat_of_nonneg (by omega)

theorem IsSound.insert {v : Version} (h : c.IsSound) (hnew : text ∉ c.entries.map Prod.fst)
    (hv : Version.parse text = .ok v) : (c.insert text v).IsSound := by
  by_cases hfull : c.capacity ≤ c.size
  · have hentries : (c.insert text v).entries = [(text, v)] := by rw [Cache.insert, if_pos hfull]
    refine ⟨?_, ?_, ?_⟩ <;> simp only [size, hentries]
    · exact List.forall_mem_singleton.mpr hv
    · exact List.pairwise_singleton _ text
    · exact c.capacity_pos
  · have hentries : (c.insert text v).entries = (text, v) :: c.entries := by
      rw [Cache.insert, if_neg hfull]
    refine ⟨?_, ?_, ?_⟩ <;> simp only [size, hentries]
    · exact List.forall_mem_cons.mpr ⟨hv, h.parse_eq⟩
    · exact List.nodup_cons.mpr ⟨hnew, h.nodup⟩
    · exact Nat.not_le.mp hfull

theorem IsSound.step (h : c.IsSound) (a : Access) : (c.step a).IsSound := by
  cases a with
  | clear => exact c.isSound_clear
  | get text =>
    rw [step_get]
    obtain ⟨v, -, hget⟩ | ⟨v, hnew, hparse, hget⟩ | ⟨e, -, hget⟩ := c.get_cases text
    · rw [hget]
      exact ⟨h.parse_eq, h.nodup, h.size_le⟩
    · rw [hget]
      exact h.insert hnew hparse
    · rw [hget]
      exact h

theorem capacity_step (c : Cache) (a : Access) : (c.step a).capacity = c.capacity := by
  cases a with
  | clear => rfl
  | get text =>
    rw [step_get]
    obtain ⟨v, -, hget⟩ | ⟨v, -, -, hget⟩ | ⟨e, -, hget⟩ := c.get_cases text
    · rw [hget]
    · rw [hget, insert]
    · rw [hget]

/-- Each lookup that succeeds counts once, as a hit or as a miss, and nothing else counts. -/
theorem IsSound.counts_step (h : c.IsSound) (a : Access) :
    (c.step a).hits + (c.step a).misses = c.hits + c.misses + if a.finds then 1 else 0 := by
  cases a with
  | clear => rfl
  | get text =>
    rw [step_get, Access.finds]
    obtain ⟨v, hmem, hget⟩ | ⟨v, -, hparse, hget⟩ | ⟨e, hparse, hget⟩ := c.get_cases text
    · rw [hget, h.parse_eq (text, v) hmem]
      exact Nat.add_right_comm c.hits 1 c.misses
    · rw [hget, hparse]
      exact (Nat.add_assoc c.hits c.misses 1).symm
    · rw [hget, hparse]
      rfl

/-! ### Runs of accesses -/

theorem IsSound.run (h : c.IsSound) (accesses : List Access) :
    (accesses.foldl Cache.step c).IsSound := by
  induction accesses generalizing c with
  | nil => exact h
  | cons a rest ih => exact ih (h.step a)

theorem capacity_run (c : Cache) (accesses : List Access) :
    (accesses.foldl Cache.step c).capacity = c.capacity := by
  induction accesses generalizing c with
  | nil => rfl
  | cons a rest ih => rw [List.foldl_cons, ih, capacity_step]

theorem IsSound.counts_run (h : c.IsSound) (accesses : List Access) :
    (accesses.foldl Cache.step c).hits + (accesses.foldl Cache.step c).misses =
      c.hits + c.misses + accesses.countP Access.finds := by
  induction accesses generalizing c with
  | nil => rfl
  | cons a rest ih =>
    rw [List.foldl_cons, ih (h.step a), h.counts_step, List.countP_cons]
    omega

end Cache

/-! ### Computations and sessions -/

namespace Lookup

variable {α : Type}

/-- The lookups that the computation makes in a cache, also those before a failure. -/
def accesses : Lookup α → Cache → List Cache.Access
  | done _, _ => []
  | fail _, _ => []
  | ask text next, c => .get text :: (next (c.get text).1).accesses (c.get text).2

theorem runWith_fst {c : Cache} (h : c.IsSound) (computation : Lookup α) :
    (computation.runWith c).1 = computation.run := by
  induction computation generalizing c with
  | done => rfl
  | fail => rfl
  | ask text next ih =>
    have hnext := ih (Version.parse text) (h.step (.get text))
    rw [← h.get_fst] at hnext
    rw [run, ← h.get_fst]
    exact hnext

theorem runWith_snd (computation : Lookup α) (c : Cache) :
    (computation.runWith c).2 = (computation.accesses c).foldl Cache.step c := by
  induction computation generalizing c with
  | done => rfl
  | fail => rfl
  | ask text next ih => exact ih _ _

end Lookup

namespace Request

section Replies

variable [Specifier.Reader]

/-- How serving the request uses the cache. -/
def accesses : Request → Cache → List Cache.Access
  | clear, _ => [.clear]
  | request, c => request.lookup.accesses c

/-- The replies to requests that share one cache, and the cache after them. -/
def serveAll : List Request → Cache → List (Except FormatError Reply) × Cache
  | [], c => ([], c)
  | request :: requests, c =>
    let (reply, next) := request.serve c
    let (replies, last) := serveAll requests next
    (reply :: replies, last)

/-- How a session uses its cache, one access after the other. -/
def accessesAll : List Request → Cache → List Cache.Access
  | [], _ => []
  | request :: requests, c => request.accesses c ++ accessesAll requests (request.serve c).2

theorem serve_fst {c : Cache} (h : c.IsSound) (request : Request) :
    (request.serve c).1 = request.answer := by
  unfold serve
  split
  · exact Lookup.runWith_fst c.isSound_clear _
  · exact Lookup.runWith_fst h _

theorem serve_snd (request : Request) (c : Cache) :
    (request.serve c).2 = (request.accesses c).foldl Cache.step c := by
  cases request with
  | clear => rfl
  | version text => exact Lookup.runWith_snd _ c
  | uri text => exact Lookup.runWith_snd _ c
  | native text scheme => exact Lookup.runWith_snd _ c

theorem serveAll_fst {c : Cache} (h : c.IsSound) (requests : List Request) :
    (serveAll requests c).1 = requests.map answer := by
  induction requests generalizing c with
  | nil => rfl
  | cons request requests ih =>
    have hnext : (request.serve c).2.IsSound := by
      rw [serve_snd]
      exact h.run _
    exact congrArg₂ List.cons (serve_fst h request) (ih hnext)

theorem serveAll_snd (requests : List Request) (c : Cache) :
    (serveAll requests c).2 = (accessesAll requests c).foldl Cache.step c := by
  induction requests generalizing c with
  | nil => rfl
  | cons request requests ih =>
    rw [accessesAll, List.foldl_append, ← serve_snd]
    exact ih _

/-- A session gives the replies that are given without a cache.  After each of its accesses every
entry is the version that its text shows, no text has two entries, there are at most as many
entries as were requested, and the two counts add up to the number of texts with a version that
were looked up.  Looking up a text without a version gives its error and leaves the cache as it
was. -/
theorem serveAll_eq_map_answer {requested : Int} (h : 1 ≤ requested) (requests : List Request) :
    ∃ c, Cache.ofCapacity requested = .ok c ∧
      (serveAll requests c).1 = requests.map answer ∧
      (serveAll requests c).2 = (accessesAll requests c).foldl Cache.step c ∧
      ∀ done, done <+: accessesAll requests c →
        let now := done.foldl Cache.step c
        (∀ entry ∈ now.entries, Version.parse entry.1 = .ok entry.2) ∧
        (now.entries.map Prod.fst).Nodup ∧
        (now.size : Int) ≤ requested ∧
        now.hits + now.misses = done.countP Cache.Access.finds ∧
        (∀ text, (now.get text).1 = Version.parse text) ∧
        ∀ text e, Version.parse text = .error e → now.get text = (.error e, now) := by
  obtain ⟨c, hc, hsound, hcapacity, hzero⟩ := Cache.exists_ofCapacity h
  refine ⟨c, hc, serveAll_fst hsound requests, serveAll_snd requests c, fun done _ => ?_⟩
  have hnow := hsound.run done
  have hsize := hnow.size_le
  rw [Cache.capacity_run] at hsize
  have hcounts := hsound.counts_run done
  rw [hzero, Nat.zero_add] at hcounts
  refine ⟨hnow.parse_eq, hnow.nodup, ?_, hcounts, hnow.get_fst, fun text e he => ?_⟩
  · exact hcapacity ▸ Int.ofNat_le.mpr hsize
  · exact hnow.get_of_parse_eq_error he

end Replies

/-- A session over a cache with room for one entry: a hit, an entry that makes room for another, a
URI whose second version is none, and a lookup after the entries were forgotten. -/
theorem serveAll_eq_map_answer_one :
    let requests :=
      [.version "1", .version "1", .uri (some "vers:npm/>=2|<x"), .clear, .version "2"]
    (1 : Int) ≤ 1 ∧ ∃ c, Cache.ofCapacity 1 = .ok c ∧
      (serveAll requests c).1 = requests.map answer ∧
      ((serveAll requests c).2.hits, (serveAll requests c).2.misses) = (1, 3) ∧
      (accessesAll requests c).countP Cache.Access.finds = 4 ∧
      (serveAll requests c).2.size ≤ 1 := by
  intro requests
  refine ⟨Int.le_refl 1, ?_⟩
  obtain ⟨c, hc, hreplies, hlast, hnow⟩ := serveAll_eq_map_answer (Int.le_refl 1) requests
  obtain ⟨-, -, hsize, hcounts, -⟩ := hnow _ List.prefix_rfl
  rw [← hlast] at hsize hcounts
  have hcapacity : c = { capacity := 1, capacity_pos := Nat.one_pos } :=
    (Except.ok.inj hc).symm
  have hpair : ((serveAll requests c).2.hits, (serveAll requests c).2.misses) = (1, 3) := by
    rw [hcapacity]
    decide +kernel
  refine ⟨c, hc, hreplies, hpair, ?_, Int.ofNat_le.mp hsize⟩
  rw [← hcounts, (Prod.mk.inj hpair).1, (Prod.mk.inj hpair).2]

end Request

end Versioning
