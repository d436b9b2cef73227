import Versioning.Proofs.Text
import Versioning.Version.Reader

/-! Texts that are read by their dots and dashes.  Such a text starts with an ASCII digit and has a
dot or a dash.  Its major number is the one in front, whatever follows. -/

namespace Versioning.Components

variable {text rest : List Char} {c : Components}

theorem leadingNumber_append_cons {x : Char} (hx : x.isDigit = false) :
    leadingNumber (text ++ x :: rest) = leadingNumber text := by
  rw [leadingNumber, Text.takeWhile_append_cons Char.isDigit hx, leadingNumber]

theorem leadingNumber_takeWhile :
    leadingNumber (text.takeWhile (· != '-')) = leadingNumber text := by
  have hdigit : (fun c => Char.isDigit c && c != '-') = Char.isDigit := by
    funext c
    by_cases hc : c = '-'
    · rw [hc]
      rfl
    · simp [hc]
  rw [leadingNumber, List.takeWhile_takeWhile, leadingNumber]
  simp only [Bool.decide_and, Bool.decide_eq_true, hdigit]

theorem ofPieces?_of_splitOn {first second : List Char} {more : List (List Char)}
    (hhead : text.head?.any Char.isDigit = true)
    (hsplit : text.splitOn '.' = first :: second :: more) :
    ofPieces? text = some {
      major := leadingNumber text
      minor := if second.contains '-' then none else some (leadingNumber second)
      patch := (looseTail more).1, prerelease := (looseTail more).2 } := by
  have hmajor : leadingNumber text = leadingNumber first := by
    rw [Text.eq_append_of_splitOn hsplit, leadingNumber_append_cons rfl]
  simp [ofPieces?, hhead, hsplit, hmajor]

theorem ofPieces?_of_dash {suffix : List Char} (hhead : text.head?.any Char.isDigit = true)
    (hsplit : text.splitOn '.' = [text]) (hcut : (Text.cutAt '-' text).2 = some suffix) :
    ofPieces? text =
      some { major := leadingNumber text, prerelease := nonempty? suffix } := by
  have hpair : Text.cutAt '-' text = (text.takeWhile (· != '-'), some suffix) :=
    Prod.ext rfl hcut
  simp [ofPieces?, hhead, hsplit, hpair, leadingNumber_takeWhile]

/-- A text is read by its pieces if it starts with a digit and there is something to cut it at. -/
theorem ofPieces?_cases (h : ofPieces? text = some c) :
    text.head?.any Char.isDigit = true ∧ ('.' ∈ text ∨ '.' ∉ text ∧ '-' ∈ text) := by
  by_cases hhead : text.head?.any Char.isDigit = true
  · refine ⟨hhead, ?_⟩
    by_cases hdot : '.' ∈ text
    · exact .inl hdot
    · by_cases hdash : '-' ∈ text
      · exact .inr ⟨hdot, hdash⟩
      · simp [ofPieces?, hhead, List.splitOn_eq_singleton hdot, Text.cutAt_of_not_mem hdash] at h
  · simp [ofPieces?, hhead] at h

theorem exists_ofPieces? (hhead : text.head?.any Char.isDigit = true)
    (h : '.' ∈ text ∨ '-' ∈ text) : ∃ c, ofPieces? text = some c := by
  by_cases hdot : '.' ∈ text
  · obtain ⟨first, second, more, hsplit⟩ := Text.exists_splitOn_of_mem hdot
    exact ⟨_, ofPieces?_of_splitOn hhead hsplit⟩
  · obtain ⟨suffix, hcut⟩ := Text.exists_cutAt_of_mem (h.resolve_left hdot)
    exact ⟨_, ofPieces?_of_dash hhead (List.splitOn_eq_singleton hdot) hcut⟩

theorem major_of_ofPieces? (h : ofPieces? text = some c) :
    c.major = leadingNumber text ∧ c.build = none := by
  obtain ⟨hhead, hdot | ⟨hdot, hdash⟩⟩ := ofPieces?_cases h
  · obtain ⟨first, second, more, hsplit⟩ := Text.exists_splitOn_of_mem hdot
    rw [ofPieces?_of_splitOn hhead hsplit] at h
    obtain rfl := Option.some.inj h
    exact ⟨rfl, rfl⟩
  · obtain ⟨suffix, hcut⟩ := Text.exists_cutAt_of_mem hdash
    rw [ofPieces?_of_dash hhead (List.splitOn_eq_singleton hdot) hcut] at h
    obtain rfl := Option.some.inj h
    exact ⟨rfl, rfl⟩

theorem looseTail_fst (pieces : List (List Char)) :
    (looseTail pieces).1 = pieces.head?.map fun third => (leadingNumber third : Int) := by
  cases pieces with
  | nil => rfl
  | cons third rest => exact congrArg (fun n : Nat => some (n : Int)) leadingNumber_takeWhile

/-- The numbers that the first three pieces start with; a second one with a dash counts as zero. -/
def releaseOfPieces (text : List Char) : Release where
  major := leadingNumber text
  minor := (text.splitOn '.')[1]?.elim 0 fun second =>
    if '-' ∈ second then 0 else leadingNumber second
  patch := (text.splitOn '.')[2]?.elim 0 fun third => leadingNumber third

theorem release_of_ofPieces? (h : ofPieces? text = some c) :
    c.release = releaseOfPieces text := by
  obtain ⟨hhead, hdot | ⟨hdot, hdash⟩⟩ := ofPieces?_cases h
  · obtain ⟨first, second, more, hsplit⟩ := Text.exists_splitOn_of_mem hdot
    rw [ofPieces?_of_splitOn hhead hsplit] at h
    obtain rfl := Option.some.inj h
    have hminor : (if second.contains '-' then none else some (leadingNumber second : Int)).getD 0 =
        if '-' ∈ second then 0 else (leadingNumber second : Int) := by
      simp only [List.contains_iff_mem]
      split <;> rfl
    have hpatch : (looseTail more).1.getD 0 =
        (more.head?.elim 0 fun third => (leadingNumber third : Int)) := by
      rw [looseTail_fst]
      cases more <;> rfl
    simp only [release, releaseOfPieces, hsplit, hminor, hpatch, List.head?_eq_getElem?]
    rfl
  · obtain ⟨suffix, hcut⟩ := Text.exists_cutAt_of_mem hdash
    rw [ofPieces?_of_dash hhead (List.splitOn_eq_singleton hdot) hcut] at h
    obtain rfl := Option.some.inj h
    simp [release, releaseOfPieces, List.splitOn_eq_singleton hdot]

end Versioning.Components
