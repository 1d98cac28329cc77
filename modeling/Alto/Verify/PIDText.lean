import Alto.Verify.IStream

/-!
# The text of a PID

The stream operators of `PID` (`common/cpp/src/lib/pid.cpp`): what is printed of a PID is read as
the same PID, whatever is read as a PID is printed as a text of that PID, and a text that is rejected
leaves the right operand as it was.
-/

namespace Alto

namespace IStream

variable {is : IStream}

/-- The right operand is assigned exactly where a PID is extracted. -/
theorem readPID_eq (is : IStream) (rhs : PID) :
    is.readPID rhs = (is.getPID.1.getD rhs, is.getPID.2) := by
  rw [readPID, getPID]
  rcases is.getUnsigned with ⟨_ | num, is⟩
  · rfl
  rcases hget : is.get with ⟨_ | dot, is⟩
  · simp only [hget, Option.getD_none]
  by_cases hdot : dot = '.'
  · subst hdot
    simp only [hget]
    -- the letter, which is one character in front of the second dot, and the ISP
    rcases is.getline 2 '.' with ⟨ext, is⟩
    by_cases hfail : is.fail
    · simp [hfail]
    by_cases hext : ext = ['i'] ∨ ext = ['e']
    · simp only [hfail, hext, if_true]
      rcases is.getString with ⟨_ | isp, is⟩ <;> rfl
    · simp [hfail, hext]
  · simp [hget, hdot]

theorem getUnsigned_fail {is' : IStream} (h : is.getUnsigned = (none, is')) : is'.fail = true := by
  cases hgood : is.good with
  | false =>
    rw [extracts_getUnsigned.bad hgood] at h
    cases h
    rfl
  | true =>
    rw [extracts_getUnsigned.settled (.inl hgood), getUnsigned_eq] at h
    dsimp only at h
    split at h
    · cases h
      rfl
    · split at h
      · cases h
        rfl
      · cases h

theorem getString_fail {is' : IStream} (h : is.getString = (none, is')) : is'.fail = true := by
  cases hgood : is.good with
  | false =>
    rw [extracts_getString.bad hgood] at h
    cases h
    rfl
  | true =>
    rw [extracts_getString.settled (.inl hgood), getString_eq_none] at h
    rw [h.2]

/-- Without a PID the stream has failed. -/
theorem getPID_fail {is' : IStream} (h : is.getPID = (none, is')) : is'.fail = true := by
  rw [getPID] at h
  split at h
  · next hnum =>
    cases h
    exact getUnsigned_fail hnum
  split at h
  · dsimp only at h
    split at h
    · next hfail =>
      cases h
      exact hfail
    split at h
    · split at h
      · next hisp =>
        cases h
        exact getString_fail hisp
      · cases h
    · cases h
      rfl
  · cases h
    rfl

/-- A stream that a PID is extracted from was good, and has not failed. -/
theorem getPID_good {p : PID} {is' : IStream} (h : is.getPID = (some p, is')) :
    is.good = true ∧ is'.fail = false := by
  cases hgood : is.good with
  | false =>
    rw [extracts_getPID.bad hgood] at h
    cases h
  | true =>
    refine ⟨rfl, ?_⟩
    rw [extracts_getPID.settled (.inl hgood)] at h
    rw [(extracts_getPID.some h).1]

/-- What has been extracted survives its text: the number is in range, and the ISP is a token. -/
theorem printable_of_getPID {p : PID} {is' : IStream} (h : is.getPID = (some p, is')) :
    p.Printable := by
  rw [extracts_getPID.settled (.inl (getPID_good h).1)] at h
  obtain ⟨num, c, rest, isp, hnum, -, hisp, rfl⟩ := getPID_eq_some h
  obtain ⟨-, -, hlt, rfl, -⟩ := getUnsigned_eq_some.1 hnum
  refine ⟨?_, ?_⟩
  · dsimp only [unsignedValue]
    split
    · exact Nat.mod_lt _ (by decide)
    · exact hlt
  · obtain ⟨hne, rfl, -⟩ := getString_eq_some.1 hisp
    rw [String.toList_ofList]
    exact isToken_takeWhile hne

end IStream

/-! ## The round trip -/

/-- A PID whose ISP is a token is read from any stream as it has been printed, and nothing more is
consumed. Whatever is read prints as a text that is read as the same PID, and a stream that has failed
leaves the target unchanged. -/
theorem PID.text_round_trip :
    (∀ (p rhs : PID) (ws more : List Char), p.num < 2 ^ 32 → p.isp.toList ≠ [] →
      (∀ c ∈ p.isp.toList, isSpace c = false) → (∀ c ∈ ws, isSpace c = true) → EndsToken more →
      IStream.readPID { rest := ws ++ (p.toText ++ more) } rhs =
        (p, { rest := more, eof := more.isEmpty })) ∧
    (∀ (is : IStream) (rhs : PID), (is.readPID rhs).2.fail = false → ∀ rhs',
      IStream.readPID { rest := (is.readPID rhs).1.toText } rhs' =
        ((is.readPID rhs).1, { rest := [], eof := true })) ∧
    (∀ (is : IStream) (rhs : PID), (is.readPID rhs).2.fail = true → (is.readPID rhs).1 = rhs) := by
  refine ⟨?_, ?_, ?_⟩
  · intro p rhs ws more hnum hne hisp hws hmore
    have hp : p.Printable := ⟨hnum, hne, hisp⟩
    rw [IStream.readPID_eq, hp.getPID ws more hws hmore]
    rfl
  · intro is rhs hfail rhs'
    rw [IStream.readPID_eq] at hfail ⊢
    cases hread : is.getPID with
    | mk read is' =>
      cases read with
      | none =>
        rw [hread, IStream.getPID_fail hread] at hfail
        cases hfail
      | some p =>
        have hback := (IStream.printable_of_getPID hread).getPID [] [] (fun _ h => nomatch h)
          endsToken_nil
        rw [List.nil_append, List.append_nil] at hback
        rw [IStream.readPID_eq is, hread]
        exact congrArg (fun read => (read.1.getD rhs', read.2)) hback
  · intro is rhs hfail
    rw [IStream.readPID_eq] at hfail ⊢
    cases hread : is.getPID with
    | mk read is' =>
      cases read with
      | none => rfl
      | some p =>
        rw [hread, (IStream.getPID_good hread).2] at hfail
        cases hfail

/-- An external PID in the middle of a stream. -/
theorem PID.text_round_trip_middle :
    IStream.readPID { rest := PID.toText ⟨"my.isp", 4, true⟩ ++ [' ', '7'] } ⟨"pid.p4p", 0, false⟩ =
      (⟨"my.isp", 4, true⟩, { rest := [' ', '7'] }) :=
  PID.text_round_trip.1 ⟨"my.isp", 4, true⟩ ⟨"pid.p4p", 0, false⟩ [] [' ', '7'] (by decide)
    (by decide) (by decide) (fun _ h => nomatch h) (endsToken_cons rfl ['7'])

end Alto
