import Versioning.Proofs.Version.Equality
import Versioning.Proofs.Version.Pieces
import Versioning.Proofs.Version.Reader

/-! Texts of versions with a plus sign and a build behind them.  In a text of the usual shape the
build is read as one, and nothing else changes.  A text that is read by its pieces takes the build
for more of these pieces: then its place is kept whatever the build, if the third piece gives the
prerelease and is not the last one; and otherwise some build moves it. -/

namespace Versioning

namespace Components

variable {text build : List Char} {c : Components}

/-! ### Texts of the usual shape -/

theorem ofShape?_append_plus (hplus : '+' ∉ text) (hbuild : build ≠ []) :
    ofShape? (text ++ '+' :: build) =
      (ofShape? text).map fun c => { c with build := some (String.ofList build) } := by
  cases hshape : ofShape? text with
  | some c =>
    obtain ⟨s, rfl, rfl⟩ := exists_shape_of_ofShape? hshape
    let built := s.withTail s.prerelease (some build) s.isPrerelease (by simpa using hbuild)
    have hunbuilt : s.text = s.unbuilt.text := by
      rw [s.text_eq_unbuilt]
      cases hb : s.build with
      | none => exact List.append_nil _
      | some old => simp [s.text_eq_unbuilt, hb, Text.marked] at hplus
    have htext : built.text = s.text ++ '+' :: build := by
      rw [hunbuilt]
      exact built.text_eq_unbuilt
    rw [← htext, ofShape?_text]
    rfl
  | none =>
    refine Option.eq_none_iff_forall_ne_some.mpr fun c hc => ?_
    obtain ⟨s, hs, -⟩ := exists_shape_of_ofShape? hc
    -- There is but one plus sign to cut at, so that the text has the shape without its build.
    have hcut := congrArg (Text.cutAt '+') hs
    rw [Text.cutAt_append hplus, s.text_eq_unbuilt] at hcut
    cases hb : s.build with
    | none =>
      rw [hb, Text.marked, List.append_nil, Text.cutAt_of_not_mem s.plus_not_mem_unbuilt] at hcut
      cases hcut
    | some old =>
      rw [hb, Text.marked, Text.cutAt_append s.plus_not_mem_unbuilt] at hcut
      rw [← (Prod.mk.inj hcut).1, ofShape?_text] at hshape
      cases hshape

/-! ### Texts that are read by their pieces -/

/-- A text that is read by its pieces stays one, with the same major number. -/
theorem exists_ofPieces?_append_plus (h : ofPieces? text = some c) (build : List Char) :
    ∃ c', ofPieces? (text ++ '+' :: build) = some c' ∧ c'.major = c.major ∧ c'.build = none := by
  obtain ⟨hhead, hcut⟩ := ofPieces?_cases h
  have hhead' := Text.head?_append_any hhead ('+' :: build)
  have hcut' : '.' ∈ text ++ '+' :: build ∨ '-' ∈ text ++ '+' :: build :=
    hcut.imp (List.mem_append_left _) fun h => List.mem_append_left _ h.2
  obtain ⟨c', hc'⟩ := exists_ofPieces? hhead' hcut'
  obtain ⟨hmajor, hbuild⟩ := major_of_ofPieces? hc'
  refine ⟨c', hc', ?_, hbuild⟩
  rw [hmajor, (major_of_ofPieces? h).1, leadingNumber_append_cons rfl]

/-! ### Where a build counts -/

/-- Whether the third piece gives the prerelease and another piece follows it, so that no build can
be taken for part of what counts. -/
def settlesPrerelease (text : List Char) : Bool :=
  match text.splitOn '.' with
  | _ :: _ :: third :: _ :: _ => (Text.cutAt '-' third).2.any (!·.isEmpty)
  | _ => false

theorem looseTail_snd (piece : List Char) (more : List (List Char)) :
    (looseTail (piece :: more)).2 =
      ((Text.cutAt '-' piece).2.bind nonempty?).or (nonempty? (['.'].intercalate more)) := rfl

theorem looseTail_of_cutAt {third suffix : List Char} (more : List (List Char))
    (hcut : (Text.cutAt '-' third).2 = some suffix) (hne : suffix ≠ []) :
    looseTail (third :: more) =
      (some (leadingNumber (Text.cutAt '-' third).1 : Int), some (String.ofList suffix)) := by
  simp [looseTail, hcut, nonempty?, hne]

theorem ofPieces?_append_plus_of_settles (h : ofPieces? text = some c)
    (hsettles : settlesPrerelease text = true) (build : List Char) :
    ofPieces? (text ++ '+' :: build) = some c := by
  obtain ⟨hhead, -⟩ := ofPieces?_cases h
  have hhead' := Text.head?_append_any hhead ('+' :: build)
  obtain ⟨pieces, last, hpieces, happend⟩ :=
    Text.exists_splitOn_append_cons (by decide : '+' ≠ '.') text
  obtain ⟨piece, rest, hbuild⟩ := List.exists_cons_of_ne_nil (List.splitOn_ne_nil '.' build)
  have hsplit' := happend build piece rest hbuild
  unfold settlesPrerelease at hsettles
  split at hsettles
  next first second third fourth more hsplit =>
    obtain ⟨suffix, hcut, hne⟩ :
        ∃ suffix, (Text.cutAt '-' third).2 = some suffix ∧ suffix ≠ [] := by
      cases hcut : (Text.cutAt '-' third).2 with
      | none => simp [hcut] at hsettles
      | some suffix => exact ⟨suffix, rfl, by simpa [hcut] using hsettles⟩
    -- The build goes on with a piece after the third.
    have hpieces : pieces = first :: second :: third :: (fourth :: more).dropLast := by
      simpa using congrArg List.dropLast (hpieces.symm.trans hsplit)
    rw [hpieces, List.cons_append, List.cons_append, List.cons_append] at hsplit'
    rw [ofPieces?_of_splitOn hhead hsplit, looseTail_of_cutAt _ hcut hne] at h
    rw [ofPieces?_of_splitOn hhead' hsplit', leadingNumber_append_cons rfl, ← h,
      looseTail_of_cutAt _ hcut hne]
  next => contradiction

theorem key_append_plus_ne (a : Identifier) :
    Identifier.key (a ++ '+' :: build) ≠ Identifier.key a := by
  have hword : Text.isNumeric (a ++ '+' :: build) = false := by simp [Text.isNumeric]
  intro h
  rw [Identifier.key, if_neg (by simp [hword]), Identifier.key] at h
  split at h
  · cases h
  · simp at h

theorem keys_append_plus_ne (prerelease : List Char) :
    ((prerelease ++ '+' :: build).splitOn '.').map Identifier.key ≠
      (prerelease.splitOn '.').map Identifier.key := by
  obtain ⟨pieces, last, hsplit, happend⟩ :=
    Text.exists_splitOn_append_cons (by decide : '+' ≠ '.') prerelease
  obtain ⟨first, more, hbuild⟩ := List.exists_cons_of_ne_nil (List.splitOn_ne_nil '.' build)
  rw [happend build first more hbuild, hsplit, List.map_append, List.map_append]
  intro h
  exact key_append_plus_ne last (List.cons.inj (List.append_cancel_left h)).1

/-- The keys of the identifiers of a prerelease. -/
def keys (prerelease : Option String) : Option (List Identifier.Key) :=
  prerelease.map fun p => (p.toList.splitOn '.').map Identifier.key

/-- A build that is taken for part of a prerelease makes another one of it. -/
theorem keys_ne {prerelease : List Char} :
    keys (some (String.ofList (prerelease ++ '+' :: build))) ≠ keys (nonempty? prerelease) := by
  rw [nonempty?]
  split
  · simp [keys]
  · simpa [keys] using keys_append_plus_ne prerelease

/-- A build that moves every text that builds can move at all. -/
def movingBuild : List Char := "-x.1".toList

theorem keys_looseTail_singleton_ne (third : List Char) :
    keys (looseTail [third ++ ['+', '-', 'x'], ['1']]).2 ≠ keys (looseTail [third]).2 := by
  by_cases hdash : '-' ∈ third
  · -- The prerelease gets longer.
    obtain ⟨number, suffix, rfl, hnumber⟩ := List.eq_append_cons_of_mem hdash
    have hcut : Text.cutAt '-' (number ++ '-' :: (suffix ++ ['+', '-', 'x'])) = _ :=
      Text.cutAt_append hnumber
    have hlast : (looseTail [number ++ '-' :: suffix]).2 = nonempty? suffix := by
      rw [looseTail_snd, Text.cutAt_append hnumber]
      exact Option.or_none
    rw [hlast, List.append_assoc, List.cons_append,
      looseTail_of_cutAt [['1']] (congrArg Prod.snd hcut) (by simp)]
    exact keys_ne
  · -- There was no prerelease.
    have hnumber : '-' ∉ third ++ ['+'] := by simpa using hdash
    have hcut : Text.cutAt '-' ((third ++ ['+']) ++ ['-', 'x']) = _ := Text.cutAt_append hnumber
    rw [List.append_assoc] at hcut
    have hlast : (looseTail [third]).2 = none := by
      rw [looseTail_snd, Text.cutAt_of_not_mem hdash]
      rfl
    have hmoved : looseTail [third ++ ['+', '-', 'x'], ['1']] = _ :=
      looseTail_of_cutAt [['1']] (congrArg Prod.snd hcut) (by simp)
    rw [hlast, hmoved]
    simp [keys]

theorem keys_looseTail_cons_ne {third : List Char} (last : List Char) (more : List (List Char))
    (h : (Text.cutAt '-' third).2.bind nonempty? = none) :
    keys (looseTail (third :: (more ++ [last ++ ['+', '-', 'x'], ['1']]))).2 ≠
      keys (looseTail (third :: (more ++ [last]))).2 := by
  have hmoved : nonempty? (['.'].intercalate (more ++ [last ++ ['+', '-', 'x'], ['1']])) =
      some (String.ofList (['.'].intercalate (more ++ [last]) ++ '+' :: movingBuild)) := by
    rw [Text.intercalate_append]
    simp [nonempty?, List.intercalate, movingBuild]
  rw [looseTail_snd, looseTail_snd, h, Option.none_or, Option.none_or, hmoved]
  exact keys_ne

theorem exists_moved (h : ofPieces? text = some c) (hsettles : settlesPrerelease text = false) :
    ∃ c', ofPieces? (text ++ '+' :: movingBuild) = some c' ∧
      (c'.release ≠ c.release ∨ keys c'.prerelease ≠ keys c.prerelease) := by
  obtain ⟨hhead, hcases⟩ := ofPieces?_cases h
  have hhead' := Text.head?_append_any hhead ('+' :: movingBuild)
  obtain ⟨pieces, last, hsplit, happend⟩ :=
    Text.exists_splitOn_append_cons (by decide : '+' ≠ '.') text
  have hsplit' := happend movingBuild ['-', 'x'] [['1']] (by decide)
  match pieces with
  | [] =>
    -- The second piece of the build is taken for the minor number.
    have hdot : '.' ∉ text := by
      intro hdot
      obtain ⟨first, second, more, h⟩ := Text.exists_splitOn_of_mem hdot
      rw [hsplit] at h
      simp at h
    obtain ⟨suffix, hcut⟩ := Text.exists_cutAt_of_mem (hcases.resolve_left hdot).2
    rw [ofPieces?_of_dash hhead (List.splitOn_eq_singleton hdot) hcut] at h
    obtain rfl := Option.some.inj h
    have hone : leadingNumber ['1'] = 1 := by decide
    refine ⟨_, ofPieces?_of_splitOn hhead' hsplit', .inl ?_⟩
    simp [release, hone]
  | [first] =>
    -- Here it is taken for the patch number.
    rw [ofPieces?_of_splitOn hhead hsplit] at h
    obtain rfl := Option.some.inj h
    have hnone : (looseTail []).1 = none := rfl
    have hone : (looseTail [['1']]).1 = some 1 := by decide
    refine ⟨_, ofPieces?_of_splitOn hhead' hsplit', .inl ?_⟩
    simp [release, hnone, hone]
  | [first, second] =>
    rw [ofPieces?_of_splitOn hhead hsplit] at h
    obtain rfl := Option.some.inj h
    exact ⟨_, ofPieces?_of_splitOn hhead' hsplit', .inr (keys_looseTail_singleton_ne last)⟩
  | first :: second :: third :: rest =>
    rw [ofPieces?_of_splitOn hhead hsplit] at h
    obtain rfl := Option.some.inj h
    have hthird : (Text.cutAt '-' third).2.bind nonempty? = none := by
      have hany : (Text.cutAt '-' third).2.any (!·.isEmpty) = false := by
        cases rest <;> simpa [settlesPrerelease, hsplit] using hsettles
      cases hcut : (Text.cutAt '-' third).2 with
      | none => rfl
      | some suffix =>
        have hsuffix : suffix = [] := by simpa [hcut] using hany
        rw [hsuffix]
        rfl
    exact ⟨_, ofPieces?_of_splitOn hhead' hsplit', .inr (keys_looseTail_cons_ne last rest hthird)⟩

end Components

namespace Version

variable {text build : String} {v w : Version}

/-- What can stand behind a plus sign: any text with something in it and no blank. -/
def IsBuild (build : String) : Prop := build ≠ "" ∧ build.toList.any Text.isBlank = false

/-- Whether the text has the shape `N[.N][.N][-prerelease][+build]`. -/
def HasShape (text : String) : Prop := (Components.ofShape? text.toList).isSome = true

/-- The texts whose place does not depend on a build: those of the usual shape, and those whose
third piece settles what the prerelease is. -/
def KeepsPlace (text : String) : Prop :=
  HasShape text ∨ Components.settlesPrerelease text.toList = true

instance (build : String) : Decidable (IsBuild build) := inferInstanceAs (Decidable (_ ∧ _))

instance (text : String) : Decidable (HasShape text) := inferInstanceAs (Decidable (_ = true))

instance (text : String) : Decidable (KeepsPlace text) := inferInstanceAs (Decidable (_ ∨ _))

theorem key_eq (v : Version) : v.key = ⟨v.release, Components.keys v.prerelease⟩ := by
  rw [key, Components.identifiers, Option.map_map]
  rfl

theorem parse_append_build_eq_ok_iff (hv : parse text = .ok v) (hbuild : IsBuild build) :
    parse (text ++ "+" ++ build) = .ok w ↔
      (Components.ofShape? (text.toList ++ '+' :: build.toList)).or
        (Components.ofPieces? (text.toList ++ '+' :: build.toList)) = some w.toComponents ∧
      w.text = text ++ "+" ++ build := by
  have htext : (text ++ "+" ++ build).toList = text.toList ++ '+' :: build.toList := by simp
  have hblank : (text.toList ++ '+' :: build.toList).any Text.isBlank = false := by
    have hplus : Text.isBlank '+' = false := by decide
    rw [List.any_append, List.any_cons, hplus, hbuild.2,
      Components.not_isBlank_of_ofText? (parse_eq_ok_iff.mp hv).1]
    rfl
  rw [parse_eq_ok_iff, htext, Components.ofText?, if_neg (by simp [hblank])]

/-- Equal components but for the build leave nothing to tell two versions apart. -/
theorem compare_congr_of_components_eq (hrelease : w.release = v.release)
    (hprerelease : w.prerelease = v.prerelease) :
    v.same w = true ∧ ∀ u, Ord.compare w u = Ord.compare v u := by
  have hidentifiers : w.identifiers = v.identifiers := by
    rw [Components.identifiers, Components.identifiers, hprerelease]
  refine ⟨same_iff_key_eq.mpr ?_, fun u => ?_⟩
  · rw [key, key, hrelease, hidentifiers]
  · change Version.compare w u = Version.compare v u
    rw [Version.compare, Version.compare, hrelease, hidentifiers]

theorem ofShape?_of_hasShape (hv : parse text = .ok v) (hshape : HasShape text) :
    Components.ofShape? text.toList = some v.toComponents := by
  obtain ⟨c, hc⟩ := Option.isSome_iff_exists.mp hshape
  have htext := (parse_eq_ok_iff.mp hv).1
  rw [Components.ofText?, hc] at htext
  split at htext
  · contradiction
  · rw [hc, ← Option.some.inj htext]

/-- Of a text in the usual shape, only the build becomes another. -/
theorem parse_append_build_of_hasShape (hv : parse text = .ok v) (hplus : '+' ∉ text.toList)
    (hbuild : IsBuild build) (hshape : HasShape text) :
    parse (text ++ "+" ++ build) =
      .ok { v with build := some build, text := text ++ "+" ++ build } := by
  have hne : build.toList ≠ [] := by simpa using hbuild.1
  rw [parse_append_build_eq_ok_iff hv hbuild, Components.ofShape?_append_plus hplus hne,
    ofShape?_of_hasShape hv hshape, String.ofList_toList]
  exact ⟨rfl, rfl⟩

theorem ofPieces?_of_not_hasShape (hv : parse text = .ok v) (hshape : ¬HasShape text) :
    Components.ofPieces? text.toList = some v.toComponents :=
  (Components.ofText?_cases (parse_eq_ok_iff.mp hv).1).resolve_left fun h =>
    hshape (by rw [HasShape, h]; rfl)

theorem parse_append_build_eq_ok_iff_of_not_hasShape (hv : parse text = .ok v)
    (hplus : '+' ∉ text.toList) (hbuild : IsBuild build) (hshape : ¬HasShape text) :
    parse (text ++ "+" ++ build) = .ok w ↔
      Components.ofPieces? (text.toList ++ '+' :: build.toList) = some w.toComponents ∧
      w.text = text ++ "+" ++ build := by
  have hne : build.toList ≠ [] := by simpa using hbuild.1
  have hnone : Components.ofShape? text.toList = none := by simpa [HasShape] using hshape
  rw [parse_append_build_eq_ok_iff hv hbuild, Components.ofShape?_append_plus hplus hne, hnone,
    Option.map_none, Option.none_or]

/-- A text that is read by its pieces stays one, and no build is seen in it. -/
theorem exists_parse_append_build_of_not_hasShape (hv : parse text = .ok v)
    (hplus : '+' ∉ text.toList) (hbuild : IsBuild build) (hshape : ¬HasShape text) :
    ∃ w, parse (text ++ "+" ++ build) = .ok w ∧ w.major = v.major ∧ w.build = none ∧
      (KeepsPlace text → v.same w = true ∧ ∀ u, Ord.compare w u = Ord.compare v u) := by
  have hpieces := ofPieces?_of_not_hasShape hv hshape
  obtain ⟨c, hc, hmajor, hnone⟩ := Components.exists_ofPieces?_append_plus hpieces build.toList
  let w : Version := { c with text := text ++ "+" ++ build }
  have hw : parse (text ++ "+" ++ build) = .ok w :=
    (parse_append_build_eq_ok_iff_of_not_hasShape hv hplus hbuild hshape).mpr ⟨hc, rfl⟩
  refine ⟨w, hw, hmajor, hnone, fun hkeeps => ?_⟩
  have hsettles := hkeeps.resolve_left hshape
  rw [Components.ofPieces?_append_plus_of_settles hpieces hsettles] at hc
  obtain rfl := Option.some.inj hc
  exact compare_congr_of_components_eq rfl rfl

/-- A text whose place depends on builds is moved by one of them. -/
theorem exists_parse_moved (hv : parse text = .ok v) (hplus : '+' ∉ text.toList)
    (hkeeps : ¬KeepsPlace text) :
    ∃ build w, IsBuild build ∧ parse (text ++ "+" ++ build) = .ok w ∧ v.same w = false := by
  obtain ⟨hshape, hsettles⟩ := not_or.mp hkeeps
  have hbuild : IsBuild (String.ofList Components.movingBuild) := by decide
  obtain ⟨c, hc, hmoved⟩ := Components.exists_moved (ofPieces?_of_not_hasShape hv hshape)
    (Bool.eq_false_iff.mpr hsettles)
  let w : Version := { c with text := text ++ "+" ++ String.ofList Components.movingBuild }
  refine ⟨_, w, hbuild,
    (parse_append_build_eq_ok_iff_of_not_hasShape hv hplus hbuild hshape).mpr ⟨?_, rfl⟩, ?_⟩
  · rw [String.toList_ofList]
    exact hc
  · refine Bool.eq_false_iff.mpr fun hsame => ?_
    have hkey := same_iff_key_eq.mp hsame
    rw [key_eq, key_eq, Key.mk.injEq] at hkey
    exact hmoved.elim (fun h => h hkey.1.symm) fun h => h hkey.2.symm

/-- Whatever build follows, the text stays that of a version with the same major number, and shows
the build as one if it has the usual shape.  Where the text keeps its place, the build plays no part
in any comparison; and where it does not, some build makes another version of it. -/
theorem exists_parse_append_build (hv : parse text = .ok v) (hplus : '+' ∉ text.toList) :
    (∀ build, IsBuild build → ∃ w, parse (text ++ "+" ++ build) = .ok w ∧ w.major = v.major ∧
      (w.build = if HasShape text then some build else none) ∧
      (KeepsPlace text → v.same w = true ∧ ∀ u, Ord.compare w u = Ord.compare v u)) ∧
    ((∀ build, IsBuild build →
      ∃ w, parse (text ++ "+" ++ build) = .ok w ∧ v.same w = true) ↔ KeepsPlace text) := by
  have hread (build : String) (hbuild : IsBuild build) :
      ∃ w, parse (text ++ "+" ++ build) = .ok w ∧ w.major = v.major ∧
        (w.build = if HasShape text then some build else none) ∧
        (KeepsPlace text → v.same w = true ∧ ∀ u, Ord.compare w u = Ord.compare v u) := by
    by_cases hshape : HasShape text
    · refine ⟨_, parse_append_build_of_hasShape hv hplus hbuild hshape, rfl, ?_, fun _ => ?_⟩
      · rw [if_pos hshape]
      · exact compare_congr_of_components_eq rfl rfl
    · rw [if_neg hshape]
      exact exists_parse_append_build_of_not_hasShape hv hplus hbuild hshape
  refine ⟨hread, fun hall => ?_, fun hkeeps build hbuild => ?_⟩
  · by_contra hkeeps
    obtain ⟨build, w, hbuild, hw, hmoved⟩ := exists_parse_moved hv hplus hkeeps
    obtain ⟨w', hw', hsame⟩ := hall build hbuild
    obtain rfl := Except.ok.inj (hw.symm.trans hw')
    rw [hmoved] at hsame
    contradiction
  · obtain ⟨w, hw, -, -, hplace⟩ := hread build hbuild
    exact ⟨w, hw, (hplace hkeeps).1⟩

/-- Both kinds of texts that keep their place, with builds that have dots and dashes of their
own. -/
theorem exists_parse_append_build_kept :
    (∃ v w, parse "1.2-rc.1" = .ok v ∧ parse "1.2-rc.1+b.1-2" = .ok w ∧
      w.build = some "b.1-2" ∧ v.same w = true) ∧
    ∃ v w, parse "1.x.0-rc.1" = .ok v ∧ parse "1.x.0-rc.1+b.1-2" = .ok w ∧
      w.build = none ∧ v.same w = true := by
  have hbuild : IsBuild "b.1-2" := by decide
  refine ⟨?_, ?_⟩
  · obtain ⟨w, hw, -, hb, hkeeps⟩ :=
      (@exists_parse_append_build "1.2-rc.1" _ rfl (by decide)).1 "b.1-2" hbuild
    exact ⟨_, w, rfl, hw, hb, (hkeeps (by decide)).1⟩
  · obtain ⟨w, hw, -, hb, hkeeps⟩ :=
      (@exists_parse_append_build "1.x.0-rc.1" _ rfl (by decide)).1 "b.1-2" hbuild
    exact ⟨_, w, rfl, hw, hb, (hkeeps (by decide)).1⟩

/-- Without the usual shape a build may go on with the prerelease, begin one, or be taken for the
patch number. -/
theorem exists_build_counts :
    (∃ v w, parse "1.2.3.4" = .ok v ∧ parse "1.2.3.4+b" = .ok w ∧
      v.same w = false ∧ w.prerelease = some "4+b") ∧
    (∃ v w, parse "1-" = .ok v ∧ parse "1-+b" = .ok w ∧
      v.same w = false ∧ w.prerelease = some "+b") ∧
    ∃ v w, parse "1.x" = .ok v ∧ parse "1.x+a.3" = .ok w ∧
      v.same w = false ∧ w.patch = some 3 := by
  refine ⟨⟨_, _, rfl, rfl, ?_⟩, ⟨_, _, rfl, rfl, ?_⟩, ⟨_, _, rfl, rfl, ?_⟩⟩ <;> decide

end Version

end Versioning
