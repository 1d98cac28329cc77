import Alto.Lib.TokenReader
import Alto.Verify.Text

/-!
# Extractions from text streams

What the extractions of strings, numbers, PIDs and prefixes have in common (`Extracts`): each takes a
token off the stream, is not changed by what comes behind white space, and fails at the end of the
file only when nothing is left.
-/

namespace Alto

open Lib

namespace IStream

/-- A stream that is good, or at its end. -/
def Settled (is : IStream) : Prop :=
  is.good = true ∨ is.eof = true ∧ is.rest = []

/-- An extraction. -/
structure Extracts {T : Type} (get : IStream → Option T × IStream) : Prop where
  bad : ∀ {is}, is.good = false → get is = (none, { is with fail := true })
  nil : get { rest := [] } = (none, { rest := [], eof := true, fail := true })
  some : ∀ {input x is}, get { rest := input } = (some x, is) →
    is = { rest := is.rest, eof := is.rest.isEmpty } ∧
      ∃ front token, input = front ++ (token ++ is.rest) ∧ IsToken token
  none : ∀ {input is}, get { rest := input } = (none, is) → is.eof = true → is.rest = []
  append : ∀ {input x is}, get { rest := input } = (Option.some x, is) → is.rest ≠ [] →
    ∀ more, get { rest := input ++ more } = (Option.some x, { rest := is.rest ++ more })

namespace Extracts

variable {T : Type} {get : IStream → Option T × IStream} {input : List Char} {x : T} {is : IStream}

/-- Only what is left of a settled stream matters. -/
theorem settled (hget : Extracts get) (h : is.Settled) : get is = get { rest := is.rest } := by
  obtain ⟨rest, eof, fail⟩ := is
  rcases h with h | ⟨heof, hrest⟩
  · simp only [good, Bool.and_eq_true, Bool.not_eq_true'] at h
    obtain ⟨rfl, rfl⟩ := h
    rfl
  · cases heof
    cases hrest
    rw [hget.bad rfl, hget.nil]

theorem settled_some (hget : Extracts get) (h : get { rest := input } = (Option.some x, is)) :
    is.Settled := by
  rw [(hget.some h).1]
  cases is.rest with
  | nil => exact .inr ⟨rfl, rfl⟩
  | cons c rest => exact .inl rfl

theorem length_lt (hget : Extracts get) (h : get { rest := input } = (Option.some x, is)) :
    is.rest.length < input.length := by
  obtain ⟨-, front, token, hinput, htoken⟩ := hget.some h
  have hpos : 0 < token.length := List.length_pos_of_ne_nil htoken.ne_nil
  rw [hinput, List.length_append, List.length_append]
  omega

/-- An extraction from a text that ends with white space leaves some of it. -/
theorem endsSep (hget : Extracts get) (h : get { rest := input } = (Option.some x, is))
    (hinput : EndsSep isSpace input) : is = { rest := is.rest } ∧ EndsSep isSpace is.rest := by
  obtain ⟨his, front, token, heq, htoken⟩ := hget.some h
  have hne : is.rest ≠ [] := by
    intro hnil
    have hlast : input.getLast? = token.getLast? := by
      rw [heq, hnil, List.append_nil, List.getLast?_append_of_ne_nil _ htoken.ne_nil]
    have hmem := List.getLast_mem htoken.ne_nil
    have hspace := hinput (token.getLast htoken.ne_nil) (by
      rw [hlast, List.getLast?_eq_some_getLast htoken.ne_nil]
      rfl)
    rw [htoken.noSpace _ hmem] at hspace
    cases hspace
  refine ⟨?_, ?_⟩
  · rw [his]
    simp [hne]
  · intro c hc
    apply hinput
    rw [heq, ← List.append_assoc, List.getLast?_append_of_ne_nil _ hne]
    exact hc

/-- An extraction from a text that ends with white space is the same whatever follows. -/
theorem more (hget : Extracts get) (h : get { rest := input } = (Option.some x, is))
    (hinput : EndsSep isSpace input) (more : List Char) :
    get { rest := input ++ more } = (Option.some x, { rest := is.rest ++ more }) := by
  apply hget.append h
  intro hnil
  obtain ⟨his, -⟩ := hget.some h
  have := (hget.endsSep h hinput).1
  rw [hnil] at his this
  rw [his] at this
  cases this

end Extracts

/-! ## Strings -/

theorem sentry_eq (input : List Char) : sentry { rest := input } =
    if input.dropWhile isSpace = [] then (false, { rest := [], eof := true, fail := true })
    else (true, { rest := input.dropWhile isSpace }) := by
  simp only [sentry, good, Bool.not_false, Bool.and_self, if_true, List.isEmpty_iff]
  split
  · next h => rw [h]
  · rfl

theorem head?_dropWhile_space {input : List Char} {c : Char}
    (h : c ∈ (input.dropWhile isSpace).head?) : isSpace c = false := by
  have := List.head?_dropWhile_not isSpace input
  rw [h] at this
  simpa using this

section GetString

variable {input text : List Char} {is : IStream}

theorem getString_eq_some : getString { rest := input } = (some text, is) ↔
    input.dropWhile isSpace ≠ [] ∧
      text = (input.dropWhile isSpace).takeWhile (fun c => !isSpace c) ∧
      is = { rest := (input.dropWhile isSpace).dropWhile fun c => !isSpace c
             eof := ((input.dropWhile isSpace).dropWhile fun c => !isSpace c).isEmpty } := by
  rw [getString, sentry_eq]
  by_cases h : input.dropWhile isSpace = []
  · simp [h]
  · simp only [h, if_false, Prod.mk.injEq, Option.some.injEq, ne_eq, not_false_eq_true, true_and]
    exact ⟨fun h => ⟨h.1.symm, h.2.symm⟩, fun h => ⟨h.1.symm, h.2.symm⟩⟩

theorem getString_eq_none : getString { rest := input } = (none, is) ↔
    input.dropWhile isSpace = [] ∧ is = { rest := [], eof := true, fail := true } := by
  rw [getString, sentry_eq]
  by_cases h : input.dropWhile isSpace = []
  · simp only [h, if_true, Prod.mk.injEq, true_and]
    exact eq_comm
  · simp [h]

end GetString

/-- The characters up to the first white space. -/
theorem isToken_takeWhile {input : List Char} (h : input.dropWhile isSpace ≠ []) :
    IsToken ((input.dropWhile isSpace).takeWhile fun c => !isSpace c) where
  ne_nil := by
    cases hd : input.dropWhile isSpace with
    | nil => exact absurd hd h
    | cons c l =>
      have hc : isSpace c = false := head?_dropWhile_space (by rw [hd]; rfl)
      simp [hc]
  noSpace c hc := by simpa using List.mem_takeWhile_imp hc

theorem isEmpty_append {l : List Char} (h : l ≠ []) (more : List Char) :
    (l ++ more).isEmpty = false := by
  cases l with
  | nil => exact absurd rfl h
  | cons c l => rfl

theorem extracts_getString : Extracts getString where
  bad {is} h := by simp [getString, sentry, h]
  nil := rfl
  some {input x is} h := by
    obtain ⟨hne, rfl, rfl⟩ := getString_eq_some.1 h
    refine ⟨rfl, input.takeWhile isSpace, _, ?_, isToken_takeWhile hne⟩
    rw [List.takeWhile_append_dropWhile, List.takeWhile_append_dropWhile]
  none {input is} h heof := by rw [(getString_eq_none.1 h).2]
  append {input x is} h hne more := by
    obtain ⟨hne', rfl, rfl⟩ := getString_eq_some.1 h
    rw [getString_eq_some, dropWhile_append_of_ne_nil hne', takeWhile_append_of_ne_nil hne,
      dropWhile_append_of_ne_nil hne]
    exact ⟨by simp [hne'], rfl, by rw [isEmpty_append hne]⟩

/-! ## Numbers -/

section GetUnsigned

/-- The text behind an optional sign. -/
def unsign (start : List Char) : List Char :=
  if start.head? = some '-' ∨ start.head? = some '+' then start.tail else start

/-- The number of digits with an optional sign in front. -/
def unsignedValue (start digits : List Char) : Nat :=
  if start.head? = some '-' then (2 ^ 32 - Nat.ofDigitChars 10 digits 0) % 2 ^ 32
  else Nat.ofDigitChars 10 digits 0

theorem unsign_suffix (start : List Char) : unsign start <:+ start := by
  unfold unsign
  split
  · exact List.tail_suffix start
  · exact List.suffix_rfl

theorem unsign_append {start : List Char} (h : start ≠ []) (more : List Char) :
    unsign (start ++ more) = unsign start ++ more := by
  unfold unsign
  rw [List.head?_append_of_ne_nil _ h]
  split
  · exact List.tail_append_of_ne_nil h
  · rfl

theorem getUnsigned_eq (input : List Char) : getUnsigned { rest := input } =
    let start := input.dropWhile isSpace
    let digits := (unsign start).takeWhile Char.isDigit
    let rest := (unsign start).dropWhile Char.isDigit
    if start = [] then (none, { rest := [], eof := true, fail := true })
    else if digits = [] ∨ 2 ^ 32 ≤ Nat.ofDigitChars 10 digits 0 then
      (none, { rest, eof := rest.isEmpty, fail := true })
    else (some (unsignedValue start digits), { rest, eof := rest.isEmpty }) := by
  rw [getUnsigned, sentry_eq]
  by_cases h : input.dropWhile isSpace = []
  · simp [h]
  · simp [h, unsign, unsignedValue]

theorem getUnsigned_eq_some {input : List Char} {n : Nat} {is : IStream} :
    getUnsigned { rest := input } = (some n, is) ↔
      let start := input.dropWhile isSpace
      let digits := (unsign start).takeWhile Char.isDigit
      let rest := (unsign start).dropWhile Char.isDigit
      start ≠ [] ∧ digits ≠ [] ∧ Nat.ofDigitChars 10 digits 0 < 2 ^ 32 ∧
        n = unsignedValue start digits ∧ is = { rest, eof := rest.isEmpty } := by
  rw [getUnsigned_eq]
  dsimp only
  generalize (unsign (input.dropWhile isSpace)).takeWhile Char.isDigit = digits
  generalize (unsign (input.dropWhile isSpace)).dropWhile Char.isDigit = rest
  generalize input.dropWhile isSpace = start
  split
  · next h => simp [h]
  · next h =>
    split
    · next hbad =>
      simp only [Prod.mk.injEq, reduceCtorEq, false_and, false_iff, not_and]
      intro _ hdigits hlt
      rcases hbad with hbad | hbad
      · exact absurd hbad hdigits
      · omega
    · next hok =>
      rw [not_or, Nat.not_le] at hok
      simp only [Prod.mk.injEq, Option.some.injEq]
      exact ⟨fun ⟨h₁, h₂⟩ => ⟨h, hok.1, hok.2, h₁.symm, h₂.symm⟩,
        fun ⟨_, _, _, h₁, h₂⟩ => ⟨h₁.symm, h₂.symm⟩⟩

theorem isToken_digits {digits text : List Char} (h : digits ≠ [])
    (hdigits : digits = text.takeWhile Char.isDigit) : IsToken digits where
  ne_nil := h
  noSpace _ hc := isSpace_of_isDigit (List.mem_takeWhile_imp (hdigits ▸ hc))

theorem extracts_getUnsigned : Extracts getUnsigned where
  bad {is} h := by simp [getUnsigned, sentry, h]
  nil := rfl
  some {input x is} h := by
    obtain ⟨-, hdigits, -, -, rfl⟩ := getUnsigned_eq_some.1 h
    obtain ⟨sign, hsign⟩ := unsign_suffix (input.dropWhile isSpace)
    refine ⟨rfl, input.takeWhile isSpace ++ sign, _, ?_, isToken_digits hdigits rfl⟩
    rw [List.takeWhile_append_dropWhile, List.append_assoc, hsign,
      List.takeWhile_append_dropWhile]
  none {input is} h heof := by
    rw [getUnsigned_eq] at h
    dsimp only at h
    split at h
    · cases h
      rfl
    · split at h
      · cases h
        simpa using heof
      · cases h
  append {input x is} h hne more := by
    obtain ⟨hstart, hdigits, hlt, rfl, rfl⟩ := getUnsigned_eq_some.1 h
    rw [getUnsigned_eq_some, dropWhile_append_of_ne_nil hstart]
    dsimp only
    rw [unsign_append hstart, takeWhile_append_of_ne_nil hne, dropWhile_append_of_ne_nil hne,
      isEmpty_append hne]
    refine ⟨by simp [hstart], hdigits, hlt, ?_, rfl⟩
    rw [unsignedValue, unsignedValue, List.head?_append_of_ne_nil _ hstart]

end GetUnsigned

/-! ## PIDs -/

/-- The extraction of a PID finds its parts, or fails. -/
theorem getPID_cases (input : List Char) :
    (∃ num c rest isp is,
      getUnsigned { rest := input } = (some num, { rest := '.' :: c :: '.' :: rest }) ∧
        (c = 'i' ∨ c = 'e') ∧ getString { rest } = (some isp, is) ∧
        getPID { rest := input } = (some ⟨String.ofList isp, num, c == 'e'⟩, is)) ∨
      (getPID { rest := input }).1 = none ∧
        ((getPID { rest := input }).2.eof = true → (getPID { rest := input }).2.rest = []) := by
  rw [getPID]
  split
  · next is hnum => exact .inr ⟨rfl, extracts_getUnsigned.none hnum⟩
  next num is hnum =>
  obtain ⟨his, -⟩ := extracts_getUnsigned.some hnum
  generalize is.rest = rest at his
  subst his
  -- the dot behind the number, the letter and the second dot, as far as there are any
  rcases rest with _ | ⟨dot, rest⟩
  · exact .inr (by simp [get, good, clearFail])
  by_cases hdot : dot = '.'
  swap
  · exact .inr (by simp [get, good, clearFail, hdot])
  subst hdot
  rcases rest with _ | ⟨c, rest⟩
  · exact .inr (by simp [get, good, getline])
  by_cases hc : c = 'i' ∨ c = 'e'
  swap
  · rcases rest with _ | ⟨dot, rest⟩
    · by_cases hc' : c = '.' <;> exact .inr (by simp [get, good, getline, clearFail, hc, hc'])
    · by_cases hc' : c = '.'
      · exact .inr (by simp [get, good, getline, clearFail, hc'])
      · by_cases hdot : dot = '.' <;>
          exact .inr (by simp [get, good, getline, clearFail, hc, hc', hdot])
  rcases rest with _ | ⟨dot, rest⟩
  · rcases hc with rfl | rfl <;> exact .inr (by simp [get, good, getline, getString, sentry])
  by_cases hdot : dot = '.'
  swap
  · rcases hc with rfl | rfl <;> exact .inr (by simp [get, good, getline, hdot])
  subst hdot
  cases hisp : getString { rest } with
  | mk isp is =>
    cases isp with
    | none =>
      have hnil := extracts_getString.none hisp
      rcases hc with rfl | rfl <;> exact .inr (by simpa [get, good, getline, hisp] using hnil)
    | some isp =>
      refine .inl ⟨num, c, rest, isp, is, hnum, hc, hisp, ?_⟩
      rcases hc with rfl | rfl <;> simp [get, good, getline, hisp]

/-- The parts of a PID that has been read. -/
theorem getPID_eq_some {input : List Char} {p : PID} {is : IStream}
    (h : getPID { rest := input } = (some p, is)) :
    ∃ num c rest isp,
      getUnsigned { rest := input } = (some num, { rest := '.' :: c :: '.' :: rest }) ∧
      (c = 'i' ∨ c = 'e') ∧ getString { rest } = (some isp, is) ∧
      p = ⟨String.ofList isp, num, c == 'e'⟩ := by
  rcases getPID_cases input with ⟨num, c, rest, isp, is', hnum, hc, hisp, heq⟩ | ⟨hnone, -⟩
  · cases h.symm.trans heq
    exact ⟨num, c, rest, isp, hnum, hc, hisp, rfl⟩
  · rw [h] at hnone
    cases hnone

theorem getPID_of_parts {input rest isp : List Char} {num : Nat} {c : Char} {is : IStream}
    (hnum : getUnsigned { rest := input } = (some num, { rest := '.' :: c :: '.' :: rest }))
    (hc : c = 'i' ∨ c = 'e') (hisp : getString { rest } = (some isp, is)) :
    getPID { rest := input } = (some ⟨String.ofList isp, num, c == 'e'⟩, is) := by
  rw [getPID, hnum]
  rcases hc with rfl | rfl <;> simp [get, good, getline, hisp]

theorem extracts_getPID : Extracts getPID where
  bad {is} h := by simp [getPID, extracts_getUnsigned.bad h]
  nil := rfl
  some {input x is} h := by
    obtain ⟨num, c, rest, isp, hnum, hc, hisp, rfl⟩ := getPID_eq_some h
    obtain ⟨-, front, token, hinput, -⟩ := extracts_getUnsigned.some hnum
    obtain ⟨his, front', token', hrest, htoken⟩ := extracts_getString.some hisp
    refine ⟨his, front ++ token ++ '.' :: c :: '.' :: front', token', ?_, htoken⟩
    rw [hinput]
    simp only at hrest ⊢
    rw [hrest]
    simp
  none {input is} h heof := by
    rcases getPID_cases input with ⟨num, c, rest, isp, is', -, -, -, heq⟩ | ⟨-, hnil⟩
    · cases h.symm.trans heq
    · rw [h] at hnil
      exact hnil heof
  append {input x is} h hne more := by
    obtain ⟨num, c, rest, isp, hnum, hc, hisp, rfl⟩ := getPID_eq_some h
    have hnum' := extracts_getUnsigned.append hnum (List.cons_ne_nil _ _) more
    exact getPID_of_parts hnum' hc (extracts_getString.append hisp hne more)

/-! ## Prefixes -/

theorem getPrefix_eq_some {net : AddressText} {input : List Char} {p : IPPrefix} {is : IStream} :
    getPrefix net { rest := input } = (some p, is) ↔
      ∃ text, getString { rest := input } = (some text, is) ∧ IPPrefix.ofText net text = some p := by
  rw [getPrefix]
  constructor
  · intro h
    split at h
    · cases h
    · next text is' htext =>
      split at h
      · cases h
      · next p' hp =>
        cases h
        exact ⟨text, htext, hp⟩
  · rintro ⟨text, htext, hp⟩
    simp [htext, hp]

theorem extracts_getPrefix (net : AddressText) : Extracts (getPrefix net) where
  bad {is} h := by simp [getPrefix, extracts_getString.bad h]
  nil := rfl
  some {input x is} h := by
    obtain ⟨text, htext, -⟩ := getPrefix_eq_some.1 h
    exact extracts_getString.some htext
  none {input is} h heof := by
    rw [getPrefix] at h
    split at h
    · next htext =>
      cases h
      exact extracts_getString.none htext heof
    · split at h
      · cases h
        cases heof
      · cases h
  append {input x is} h hne more := by
    obtain ⟨text, htext, hp⟩ := getPrefix_eq_some.1 h
    exact getPrefix_eq_some.2 ⟨text, extracts_getString.append htext hne more, hp⟩

end IStream

end Alto
