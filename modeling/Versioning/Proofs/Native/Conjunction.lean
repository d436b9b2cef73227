import Mathlib.Data.List.TakeWhile
import Versioning.Proofs.Native.Alternatives
import Versioning.Proofs.Native.Bounds
import Versioning.Proofs.Range.Requirements
import Versioning.Proofs.Range.Spelling

/-! Requirements between commas: those of gems and specifier sets.  In both grammars a piece is a
comparison for the list of constraints or a range that the list is narrowed to, whatever the other
pieces are.  So a list is read as its requirements are on their own, and holds what
`contains_ofRequirements` says. -/

namespace Versioning

open Lookup Range

theorem Version.isOrdered_ofRelease (r : Release) : (ofRelease r).IsOrdered := by
  simp [IsOrdered, ofRelease, ofComponents, Components.identifiers]

theorem Version.isOrdered_increment (v : Version) (component : Component) :
    (v.increment component).IsOrdered := isOrdered_ofRelease _

theorem Range.isNarrowing_series {v : Version} (hv : v.IsOrdered) (component : Component) :
    (series v component).IsNarrowing ∧ (series v component).compl.IsNarrowing :=
  isNarrowing_upTo hv (v.isOrdered_increment component)

/-- Texts with no comma in them come apart again at the commas between them. -/
theorem splitOn_intercalate_comma {texts : List String} (hne : texts ≠ [])
    (h : ∀ t ∈ texts, ',' ∉ t.toList) :
    (",".intercalate texts).toList.splitOn ',' = texts.map String.toList := by
  rw [String.toList_intercalate]
  exact List.splitOn_intercalate ',' (by simpa using h) (by simpa using hne)

theorem strip_intercalate_comma_ne_nil {texts : List String} (hne : texts ≠ [])
    (h : ∀ t ∈ texts, Text.strip t.toList ≠ []) :
    Text.strip (",".intercalate texts).toList ≠ [] := by
  obtain ⟨t, rest, rfl⟩ := List.exists_cons_of_ne_nil hne
  have hprefix : ∃ after, (",".intercalate (t :: rest)).toList = t.toList ++ after := by
    cases rest with
    | nil => exact ⟨[], by simp⟩
    | cons t' rest =>
      rw [String.intercalate_cons_cons, String.toList_append, String.toList_append,
        List.append_assoc]
      exact ⟨_, rfl⟩
  obtain ⟨after, hafter⟩ := hprefix
  rw [hafter, Ne, Text.strip_eq_nil_iff]
  intro hblank
  refine h t (.head rest) (Text.strip_eq_nil_iff.mpr fun c hc => hblank c ?_)
  exact List.mem_append_left after hc

/-! ### Gems -/

namespace Gem

open Text

/-- What the piece asks for. -/
inductive Reads (piece : List Char) : Requirement → Prop where
  | comparison {c : Constraint} {op : Operator} {v : Version} (hp : pessimistic? piece = none)
      (hc : Constraint.parsePiece piece = .ok c) (hv : Resolves c (op, v)) :
      Reads piece (.comparison op v)
  | pessimistic {rest : List Char} {r : Range} (hp : pessimistic? piece = some rest)
      (hr : (pessimisticRange rest).run = .ok r) : Reads piece (.narrowing r)

variable {pieces : List (List Char)} {qs : List Requirement} {text : String}

theorem exists_constraints_of_reads (h : List.Forall₂ Reads pieces qs) :
    (∃ cs, List.Forall₂ (fun p c => Constraint.parsePiece p = .ok c)
        (pieces.filter (pessimistic? · |>.isNone)) cs ∧
      List.Forall₂ Resolves cs (qs.filterMap Requirement.comparison?)) ∧
    List.Forall₂ (fun rest r => (pessimisticRange rest).run = .ok r)
      (pieces.filterMap pessimistic?) (qs.filterMap Requirement.narrowing?) := by
  induction h with
  | nil => exact ⟨⟨[], .nil, .nil⟩, .nil⟩
  | cons hread _ ih =>
    obtain ⟨⟨cs, hcs, hres⟩, hranges⟩ := ih
    cases hread with
    | comparison hp hc hv =>
      simp only [List.filter_cons, List.filterMap_cons, hp]
      exact ⟨⟨_ :: cs, .cons hc hcs, .cons hv hres⟩, hranges⟩
    | pessimistic hp hr =>
      simp only [List.filter_cons, List.filterMap_cons, hp]
      exact ⟨⟨cs, hcs, hres⟩, .cons hr hranges⟩

theorem run_parse_of_reads (hne : strip text.toList ≠ [])
    (hpieces : ∀ p ∈ text.toList.splitOn ',', strip p ≠ [])
    (h : List.Forall₂ Reads ((text.toList.splitOn ',').map strip) qs) :
    (parse text).run = .ok (ofRequirements qs) := by
  obtain ⟨⟨cs, hcs, hres⟩, hranges⟩ := exists_constraints_of_reads h
  have hblank : ((text.toList.splitOn ',').map strip).any (·.isEmpty) = false := by
    simpa [List.any_eq_false] using hpieces
  rw [parse, if_neg (by simpa using hne)]
  simp only [hblank, Bool.false_eq_true, if_false]
  have hplain : (((text.toList.splitOn ',').map strip).filter (pessimistic? · |>.isNone)).isEmpty =
      (qs.filterMap Requirement.comparison?).isEmpty := by
    rw [Bool.eq_iff_iff, List.isEmpty_iff_length_eq_zero, List.isEmpty_iff_length_eq_zero,
      hcs.length_eq, hres.length_eq]
  rw [hplain]
  have hnarrow (start : Range) : (((text.toList.splitOn ',').map strip).filterMap
      pessimistic? |>.foldlM (fun range rest => range.inter <$> pessimisticRange rest) start).run =
        .ok ((qs.filterMap Requirement.narrowing?).foldl inter start) :=
    run_foldlM_eq_ok_iff.mpr ⟨_, hranges, rfl⟩
  unfold ofRequirements
  dsimp only
  split
  · exact run_bind_eq_ok_iff.mpr ⟨unbounded, rfl, hnarrow unbounded⟩
  · refine run_bind_eq_ok_iff.mpr ⟨_, run_bind_eq_ok_iff.mpr ⟨cs, ?_, ?_⟩, hnarrow _⟩
    · rw [run_ofExcept]
      exact mapM_eq_ok_iff.mpr hcs
    · exact run_build_eq_ok_iff.mpr ⟨_, hres, rfl⟩

theorem parse_of_pessimistic {rest : List Char} (hne : strip text.toList ≠ [])
    (hcomma : ',' ∉ text.toList) (hp : pessimistic? (strip text.toList) = some rest) :
    parse text = unbounded.inter <$> pessimisticRange rest := by
  simp [parse, hne, List.splitOn_eq_singleton hcomma, hp]

theorem parse_of_comparison (hne : strip text.toList ≠ []) (hcomma : ',' ∉ text.toList)
    (hp : pessimistic? (strip text.toList) = none) : parse text = ofPieces [strip text.toList] := by
  simp [parse, hne, List.splitOn_eq_singleton hcomma, hp]

/-- A single requirement is read as the range of what it asks for. -/
theorem yields_parse_single (hne : strip text.toList ≠ []) (hcomma : ',' ∉ text.toList) :
    (parse text).Yields Version.IsOrdered fun r =>
      ∃ q, Reads (strip text.toList) q ∧ q.IsOrdered ∧ ofRequirements [q] = r := by
  cases hp : pessimistic? (strip text.toList) with
  | some rest =>
    rw [parse_of_pessimistic hne hcomma hp]
    have hnarrowing : (pessimisticRange rest).Yields Version.IsOrdered IsNarrowing :=
      yields_pessimisticRange (fun _ hv => (isNarrowing_series hv _).1) rest
    exact hnarrowing.and_run.map fun r ⟨hr, hrun⟩ =>
      ⟨.narrowing r, .pessimistic hp hrun, hr, rfl⟩
  | none =>
    rw [parse_of_comparison hne hcomma hp]
    refine (Yields.ofExcept fun cs hcs => mapM_eq_ok_iff.mp hcs).bind fun cs hcs => ?_
    -- A single piece is a single constraint, which resolves to one comparison.
    intro hfound r hr
    obtain ⟨resolved, hordered, hresolved, rfl⟩ := yields_build cs hfound r hr
    obtain _ | ⟨hparse, _ | _⟩ := hcs
    obtain _ | @⟨_, ⟨op, v⟩, _, _, hc, _ | _⟩ := hresolved
    exact ⟨.comparison op v, .comparison hp hparse hc, hordered _ (.head []), rfl⟩

end Gem

/-! ### Specifier sets -/

namespace Pypi

open Text

variable [Specifier.Reader]

/-- What the piece asks for. -/
inductive Reads (piece : List Char) : Requirement → Prop where
  | comparison {s : Specifier} {c : Constraint} {op : Operator} {v : Version}
      (hs : Specifier.Reader.ofClause? (complete piece) = some s)
      (hc : (Clause.ofSpecifier s).run = .ok (.constraint c)) (hv : Resolves c (op, v)) :
      Reads piece (.comparison op v)
  | range {s : Specifier} {r : Range} (hs : Specifier.Reader.ofClause? (complete piece) = some s)
      (hr : (Clause.ofSpecifier s).run = .ok (.range r)) : Reads piece (.narrowing r)

variable {piece : List Char} {pieces : List (List Char)} {qs : List Requirement}
  {text : String} {clause : Clause}

theorem run_readClause_eq_ok_iff (set : String) : (readClause set piece).run = .ok clause ↔
    ∃ s, Specifier.Reader.ofClause? (complete (strip piece)) = some s ∧
      (Clause.ofSpecifier s).run = .ok clause := by
  rw [readClause, run_bind_eq_ok_iff]
  simp only [run_ofExcept, specifier]
  cases Specifier.Reader.ofClause? (complete (strip piece)) <;> simp

theorem parse_eq (hne : strip text.toList ≠ []) : parse text = do
    let clauses ← (text.toList.splitOn ',').mapM (readClause text)
    let constraints := clauses.filterMap Clause.constraint?
    let start ← if constraints.isEmpty then pure .unbounded else Range.build constraints
    return (clauses.filterMap Clause.range?).foldl .inter start := by
  rw [parse, if_neg (by simpa using hne)]

theorem exists_clauses_of_reads (set : String)
    (h : List.Forall₂ (fun p q => Reads (strip p) q) pieces qs) :
    ∃ clauses, List.Forall₂ (fun p clause => (readClause set p).run = .ok clause) pieces clauses ∧
      List.Forall₂ Resolves (clauses.filterMap Clause.constraint?)
        (qs.filterMap Requirement.comparison?) ∧
      clauses.filterMap Clause.range? = qs.filterMap Requirement.narrowing? := by
  induction h with
  | nil => exact ⟨[], .nil, .nil, rfl⟩
  | cons hread _ ih =>
    obtain ⟨clauses, hclauses, hresolves, hranges⟩ := ih
    cases hread with
    | comparison hs hc hv =>
      have hclause := (run_readClause_eq_ok_iff set).mpr ⟨_, hs, hc⟩
      exact ⟨_ :: clauses, .cons hclause hclauses, .cons hv hresolves, hranges⟩
    | range hs hr =>
      have hclause := (run_readClause_eq_ok_iff set).mpr ⟨_, hs, hr⟩
      exact ⟨_ :: clauses, .cons hclause hclauses, hresolves, congrArg (_ :: ·) hranges⟩

theorem run_parse_of_reads (hne : strip text.toList ≠ [])
    (h : List.Forall₂ Reads ((text.toList.splitOn ',').map strip) qs) :
    (parse text).run = .ok (ofRequirements qs) := by
  obtain ⟨clauses, hclauses, hresolves, hranges⟩ :=
    exists_clauses_of_reads text (List.forall₂_map_left_iff.mp h)
  have hempty : (clauses.filterMap Clause.constraint?).isEmpty =
      (qs.filterMap Requirement.comparison?).isEmpty := by
    rw [Bool.eq_iff_iff, List.isEmpty_iff_length_eq_zero, List.isEmpty_iff_length_eq_zero,
      hresolves.length_eq]
  rw [parse_eq hne]
  refine run_bind_eq_ok_iff.mpr ⟨clauses, run_mapM_eq_ok_iff.mpr hclauses, ?_⟩
  unfold ofRequirements
  dsimp only
  rw [hempty, hranges]
  split
  · rfl
  · exact run_bind_eq_ok_iff.mpr ⟨_, run_build_eq_ok_iff.mpr ⟨_, hresolves, rfl⟩, rfl⟩

/-- A single requirement is read as the range of what it asks for. -/
theorem yields_parse_single (hne : strip text.toList ≠ []) (hcomma : ',' ∉ text.toList) :
    (parse text).Yields Version.IsOrdered fun r =>
      ∃ q, Reads (strip text.toList) q ∧ q.IsOrdered ∧ ofRequirements [q] = r := by
  have hyields (p : List Char) : (readClause text p).Yields Version.IsOrdered fun clause =>
      ∀ r ∈ clause.range?, r.IsNarrowing :=
    yields_readClause (fun _ hv => (isNarrowing_series hv _).1)
      (fun _ hv => (isNarrowing_series hv _).1) (fun _ hv => (isNarrowing_series hv _).2) text p
  rw [parse_eq hne, List.splitOn_eq_singleton hcomma]
  refine (Yields.mapM fun p _ => hyields p).and_run.bind
    fun clauses ⟨hnarrowing, hrun⟩ => ?_
  obtain _ | @⟨_, clause, _, _, hclause, _ | _⟩ := run_mapM_eq_ok_iff.mp hrun
  obtain ⟨s, hs, hclause⟩ := (run_readClause_eq_ok_iff text).mp hclause
  cases clause with
  | constraint c =>
    refine (yields_build [c]).bind fun start ⟨cs, hordered, hresolved, hstart⟩ => .pure ?_
    obtain _ | @⟨_, ⟨op, v⟩, _, _, hc, _ | _⟩ := hresolved
    exact ⟨.comparison op v, .comparison hs hclause hc, hordered _ (.head []), hstart⟩
  | range r => exact .pure ⟨.narrowing r, .range hs hclause, hnarrowing _ (.head []) r rfl, rfl⟩

end Pypi

/-! ### Lists by the name of the ecosystem -/

namespace Range

theorem grammarOf_gem [Specifier.Reader] : grammarOf "gem" = Gem.parse := by
  have hname : Scheme.ofName? "gem" = some .gem := by decide +kernel
  rw [grammarOf, hname]
  rfl

theorem grammarOf_pypi [Specifier.Reader] : grammarOf "pypi" = Pypi.parse := by
  have hname : Scheme.ofName? "pypi" = some .pypi := by decide +kernel
  rw [grammarOf, hname]
  rfl

section Lists

variable {texts : List String} {rs : List Range}

/-- Pieces that a grammar reads on their own make up the list that it reads from all of them. -/
theorem exists_requirements {parse : String → Lookup Range}
    {Reads : List Char → Requirement → Prop}
    (hsingle : ∀ t : String, Text.strip t.toList ≠ [] → ',' ∉ t.toList →
      (parse t).Yields Version.IsOrdered fun r =>
        ∃ q, Reads (Text.strip t.toList) q ∧ q.IsOrdered ∧ ofRequirements [q] = r)
    (hlist : ∀ (t : String) (qs : List Requirement), Text.strip t.toList ≠ [] →
      (∀ p ∈ t.toList.splitOn ',', Text.strip p ≠ []) →
      List.Forall₂ Reads ((t.toList.splitOn ',').map Text.strip) qs →
      (parse t).run = .ok (ofRequirements qs))
    (hne : texts ≠ []) (h : ∀ t ∈ texts, Text.strip t.toList ≠ [] ∧ ',' ∉ t.toList)
    (ho : ∀ t ∈ texts, ∀ v ∈ (parse t).found, v.IsOrdered)
    (hrs : List.Forall₂ (fun t r => (parse t).run = .ok r) texts rs) :
    ∃ qs : List Requirement, (∀ q ∈ qs, q.IsOrdered) ∧ rs = qs.map (fun q => ofRequirements [q]) ∧
      (parse (",".intercalate texts)).run = .ok (ofRequirements qs) := by
  have hread : List.Forall₂ (fun t r => ∃ q, Reads (Text.strip t.toList) q ∧
      q.IsOrdered ∧ ofRequirements [q] = r) texts rs := by
    have hyields : ∀ t ∈ texts, ∀ r, (parse t).run = .ok r → ∃ q,
        Reads (Text.strip t.toList) q ∧ q.IsOrdered ∧ ofRequirements [q] = r :=
      fun t ht => hsingle t (h t ht).1 (h t ht).2 (ho t ht)
    have htexts := (List.forall₂_and_left texts rs).mpr ⟨hyields, hrs⟩
    exact htexts.imp fun t r ⟨ht, hr⟩ => ht r hr
  obtain ⟨qs, hreads, hranges⟩ := exists_between_of_forall₂ hread
  have hsplit := splitOn_intercalate_comma hne fun t ht => (h t ht).2
  refine ⟨qs, fun q hq => ?_, ?_, hlist _ qs ?_ ?_ ?_⟩
  · obtain ⟨r, _, hordered, _⟩ := exists_left_of_forall₂ hranges.flip hq
    exact hordered
  · have hmap := List.forall₂_map_left_iff.mpr (hranges.imp fun q r hr => hr.2)
    exact (List.forall₂_eq_eq_eq ▸ hmap).symm
  · exact strip_intercalate_comma_ne_nil hne fun t ht => (h t ht).1
  · rw [hsplit]
    simpa using fun t ht => (h t ht).1
  · rw [hsplit, List.map_map]
    exact List.forall₂_map_left_iff.mpr hreads

/-- Requirements that are accepted on their own are accepted with commas between them, whatever
reads their clauses.  The list holds what all of them hold, and nothing that an exclusion or a
narrowing does not hold.  The other comparisons are merged as their intervals are, so that all of
them hold it if they accord. -/
theorem exists_parseNative_conjunction [Specifier.Reader] {scheme : String}
    (hscheme : scheme ∈ ["gem", "pypi"]) (hne : texts ≠ [])
    (h : ∀ t ∈ texts, Text.strip t.toList ≠ [] ∧ ',' ∉ t.toList)
    (ho : ∀ t ∈ texts, ∀ v ∈ (parseNative t scheme).found, v.IsOrdered)
    (hrs : List.Forall₂ (fun t r => (parseNative t scheme).run = .ok r) texts rs) :
    ∃ r, (parseNative (",".intercalate texts) scheme).run = .ok r ∧
      ∀ v : Version, v.IsOrdered →
        ((∀ s ∈ rs, s.contains v = true) → r.contains v = true) ∧
        (r.contains v = true →
          (∀ s ∈ rs, s.single? = none → s.contains v = true) ∧
          (rs.filterMap single? ≠ [] →
            (ofIntervals (rs.filterMap single?)).contains v = true)) ∧
        ((∀ a ∈ rs.filterMap single?, ∀ b ∈ rs.filterMap single?, a.Accords b) →
          r.contains v = true → ∀ s ∈ rs, s.contains v = true) := by
  simp only [parseNative, found_mapError] at ho
  simp only [run_parseNative_eq_ok_iff] at hrs ⊢
  have hlist : ∃ qs : List Requirement, (∀ q ∈ qs, q.IsOrdered) ∧
      rs = qs.map (fun q => ofRequirements [q]) ∧
      (grammarOf scheme (",".intercalate texts)).run = .ok (ofRequirements qs) := by
    obtain rfl | rfl : scheme = "gem" ∨ scheme = "pypi" := by simpa using hscheme
    · rw [grammarOf_gem] at ho hrs ⊢
      exact exists_requirements (fun t => Gem.yields_parse_single)
        (fun t qs => Gem.run_parse_of_reads) hne h ho hrs
    · rw [grammarOf_pypi] at ho hrs ⊢
      exact exists_requirements (fun t => Pypi.yields_parse_single)
        (fun t qs ht _ => Pypi.run_parse_of_reads ht) hne h ho hrs
  obtain ⟨qs, hordered, hqs, hrun⟩ := hlist
  exact ⟨_, hrun, fun v hv => contains_ofRequirements hordered hqs hv⟩

end Lists

/-- A lower bound that is given twice, an exclusion and a narrowing go together, as do a point and
the bounds that meet in it. -/
theorem exists_parseNative_conjunction_twice :
    let v (major minor : Int) : Version := .ofComponents { major, minor := some minor }
    let rc : Version := .ofComponents { major := 1, minor := some 6, prerelease := some "rc.1" }
    let gems := [">= 1.2", "!= 1.5", "~> 1.0 ", " < 2.5", ">=1.2"]
    let packages := ["~=1.0", "==1.2", "<=1.2", "!=1.3.*"]
    rc.IsOrdered ∧
      (∃ r, (parseNative (",".intercalate gems) "gem").run = .ok r ∧ r.contains rc = true ∧
        r.contains (v 1 5) = false) ∧
      ∃ r, (parseNative (",".intercalate packages) "pypi").run = .ok r ∧
        r.contains (v 1 2) = true ∧ r.contains (v 1 1) = false := by
  intro v rc gems packages
  have hv (major minor : Int) : (v major minor).IsOrdered := by simp [Version.IsOrdered, v,
    Version.ofComponents, Components.identifiers]
  have hrc : rc.IsOrdered := by decide +kernel
  refine ⟨hrc, ?_, ?_⟩
  · let ranges := [above (v 1 2) true, unbounded.exclude (v 1 5),
      upTo (v 1 0) (.ofRelease ⟨2, 0, 0⟩), below (v 2 5) false, above (v 1 2) true]
    have hrs : List.Forall₂ (fun t r => (parseNative t "gem").run = .ok r) gems ranges :=
      .cons (by decide +kernel) (.cons (by decide +kernel) (.cons (by decide +kernel)
        (.cons (by decide +kernel) (.cons (by decide +kernel) .nil))))
    obtain ⟨r, hr, hexact⟩ := exists_parseNative_conjunction (by decide) (by decide)
      (by decide +kernel) (by decide +kernel) hrs
    have haccord : ∀ a ∈ ranges.filterMap single?, ∀ b ∈ ranges.filterMap single?,
        a.Accords b := by decide +kernel
    refine ⟨r, hr, (hexact rc hrc).1 (by decide +kernel), Bool.eq_false_of_not_eq_true fun h => ?_⟩
    exact absurd ((hexact (v 1 5) (hv 1 5)).2.2 haccord h) (by decide +kernel)
  · let ranges := [upTo (v 1 0) (.ofRelease ⟨2, 0, 0⟩), exact (v 1 2), below (v 1 2) true,
      (upTo (v 1 3) (.ofRelease ⟨1, 4, 0⟩)).compl]
    have hrs : List.Forall₂ (fun t r => (parseNative t "pypi").run = .ok r) packages ranges :=
      .cons (by decide +kernel) (.cons (by decide +kernel) (.cons (by decide +kernel)
        (.cons (by decide +kernel) .nil)))
    obtain ⟨r, hr, hexact⟩ := exists_parseNative_conjunction (by decide) (by decide)
      (by decide +kernel) (by decide +kernel) hrs
    refine ⟨r, hr, (hexact (v 1 2) (hv 1 2)).1 (by decide +kernel),
      Bool.eq_false_of_not_eq_true fun h => ?_⟩
    exact absurd ((hexact (v 1 1) (hv 1 1)).2.2 (by decide +kernel) h) (by decide +kernel)

/-- Of two lower bounds the looser one wins, and two comparisons that share no version are both
kept.  Versions that are not ordered break the rule in either direction: `1.0.0-0x` lies between two
spellings of one version, and `1.0.0-1a` beyond greater ones. -/
theorem exists_not_conjunction :
    let v (identifier : String) : Version :=
      .ofComponents { major := 1, minor := some 0, patch := some 0, prerelease := some identifier }
    let middle : Version := .ofComponents { major := 1, minor := some 5 }
    let zero : Version := .ofComponents { major := 0 }
    let holds (scheme : String) (v : Version) (text : String) : Option Bool :=
      ((parseNative text scheme).run.map (·.contains v)).toOption
    (∀ scheme ∈ ["gem", "pypi"],
      holds scheme middle ">=1,>=2" = some true ∧ holds scheme middle ">=2" = some false ∧
      holds scheme zero "<1,>2" = some true ∧ holds scheme zero ">2" = some false) ∧
    (holds "gem" (v "0x") ">=1.0.0-01,!=1.0.0-1" = some false ∧
      ∀ text ∈ [">=1.0.0-01", "!=1.0.0-1"], holds "gem" (v "0x") text = some true) ∧
    (v "2").IsOrdered ∧ holds "gem" (v "2") "!=1.0.0-2" = some false ∧
      holds "gem" (v "2") ">=1.0.0-0,<=1.0.0-20,!=1.0.0-1a,!=1.0.0-2,!=1.0.0-10" =
        some true := by
  decide +kernel

end Range

end Versioning
