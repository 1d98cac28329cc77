import Mathlib
import Alto.Common.ResponseReader

/-!
# Responses do not depend on how they are cut into chunks

Each reader is `Resumable`. The readers of lists write nothing before the end of a record, and the
PID map reader takes one token at a time. The readers of matrices write while they read a record, and
write the same again when they read it a second time.
-/

namespace Alto.Response

open Lib

/-! ## The base class -/

section Base

variable {S : Type} {consume : Bool → List Char → S → Consumed Char S}

/-- The members of the base class as a consumer between two chunks. -/
def ResponseReader.feed (r : ResponseReader S) : Feed Char S :=
  if r.hasError then .failed r.state else .more r.buffer r.state

/-- Reading with the base class is feeding its `consume`. -/
theorem ResponseReader.read_eq_feed (r : ResponseReader S)
    (herror : r.hasError = true → r.buffer = []) (chunks : List (List Char)) :
    r.read consume chunks = r.feed.all consume chunks := by
  induction chunks generalizing r with
  | nil =>
    rw [read, Feed.all, finish]
    cases he : r.hasError with
    | true =>
      simp only [feed, he, if_true, Feed.close, herror he]
      cases consume true [] r.state <;> rfl
    | false =>
      simp only [feed, he, Bool.false_eq_true, if_false, Feed.close]
      cases consume true r.buffer r.state <;> rfl
  | cons chunk chunks ih =>
    rw [read, Feed.all, process]
    cases he : r.hasError with
    | true =>
      simp only [if_true]
      rw [ih r herror]
      simp only [feed, he, if_true]
      rfl
    | false =>
      simp only [Bool.false_eq_true, if_false, feed, he, Feed.chunk]
      cases consume false (r.buffer ++ chunk) r.state with
      | ok rest state => exact ih _ (by simp)
      | error state => exact ih _ fun _ => rfl
      | undefined => rfl

/-- What a resumable reader comes to depends on the whole response only. -/
theorem ResponseReader.read_eq_settle (hr : Resumable consume) {s : S}
    (hstart : consume false [] s = .ok [] s) (chunks : List (List Char)) :
    read consume { state := s } chunks = settle consume chunks.flatten s :=
  (read_eq_feed { state := s } (fun h => nomatch h) chunks).trans
    (hr.feedAll_flatten hstart chunks)

/-- One call of `process` with everything, if the reader is resumable. -/
theorem ResponseReader.read_flatten (hr : Resumable consume) {s : S}
    (hstart : consume false [] s = .ok [] s) (chunks : List (List Char)) :
    read consume { state := s } chunks = read consume { state := s } [chunks.flatten] := by
  rw [read_eq_settle hr hstart, read_eq_settle hr hstart, List.flatten_singleton]

end Base

/-! ## Readers of lists -/

/-- A reader without writes. -/
theorem absorbing_of_empty {S : Type} (R : TokenReader Char Empty S) : R.Absorbing where
  require w := w.elim
  record w := w.elim
  twice ws s := by
    cases ws with
    | nil => rfl
    | cons w ws => exact w.elim

/-! ## Readers of single tokens -/

section Token

variable {finished : Bool} {input input' : List Char}

theorem dropWhile_dropWhile_append (input more : List Char) :
    (input.dropWhile isSpace ++ more).dropWhile isSpace = (input ++ more).dropWhile isSpace := by
  by_cases hnil : input.dropWhile isSpace = []
  · rw [hnil, List.nil_append]
    induction input with
    | nil => rfl
    | cons c input ih =>
      rw [List.dropWhile_cons] at hnil
      split at hnil
      · next hc => simpa [List.dropWhile_cons, hc] using ih hnil
      · cases hnil
  · rw [dropWhile_append_of_ne_nil hnil, dropWhile_append_of_ne_nil, List.dropWhile_idempotent]
    rwa [List.dropWhile_idempotent]

/-- Leading white space makes no difference to the next token. -/
theorem readToken_congr (h : input.dropWhile isSpace = input'.dropWhile isSpace) :
    readToken isSpace finished input = readToken isSpace finished input' := by
  unfold readToken
  rw [h]

theorem tokenConsume_congr (h : input.dropWhile isSpace = input'.dropWhile isSpace)
    (s : List (List Char)) : tokenConsume finished input s = tokenConsume finished input' s := by
  have hsep : tokenReader.sep = isSpace := rfl
  have hrequire : tokenReader.require s = false := rfl
  rw [tokenConsume, tokenConsume, TokenReader.consume_eq, TokenReader.consume_eq,
    TokenReader.body, TokenProg.run, TokenProg.run, hsep, readToken_congr h]
  cases readToken isSpace finished input' with
  | some p => rfl
  | none => simp only [hrequire, Bool.false_and, Bool.false_eq_true, if_false, h]

theorem tokenConsume_continues : Continues (tokenConsume false) := by
  intro input s more
  have hmore := (absorbing_of_empty tokenReader).continues input s more
  cases hc : tokenReader.consume false input s with
  | ok rest s' =>
    rw [hc] at hmore
    have hfirst : tokenConsume false (input ++ more) s = tokenConsume false (rest ++ more) s' := by
      rw [tokenConsume, tokenConsume, hmore]
    simp only [tokenConsume, hc]
    rw [← tokenConsume, ← tokenConsume, hfirst]
    exact tokenConsume_congr (dropWhile_dropWhile_append rest more).symm s'
  | error s' =>
    rw [hc] at hmore
    simp only [tokenConsume, hc, show _ = _ from hmore]
  | undefined =>
    rw [hc] at hmore
    simp only [tokenConsume, hc, show _ = _ from hmore]

theorem tokenConsume_nil (s : List (List Char)) : tokenConsume false [] s = .ok [] s := by
  rw [tokenConsume, TokenReader.consume_nil]
  rfl

theorem singleTokenConsume_found {token : List Char} (htoken : token ≠ []) (finished : Bool)
    (input : List Char) : singleTokenConsume finished input token = .ok [] token := by
  rw [singleTokenConsume, if_pos htoken]

/-- Once there is a token, everything that follows is dropped. -/
theorem settle_found {token : List Char} (htoken : token ≠ []) (input : List Char) :
    settle singleTokenConsume input token = some (token, false) := by
  rw [settle, singleTokenConsume_found htoken]
  show (singleTokenConsume true [] token).result = _
  rw [singleTokenConsume_found htoken]
  rfl

theorem singleTokenConsume_resumable : Resumable singleTokenConsume where
  resume {input rest token token'} h more := by
    by_cases htoken : token = []
    · subst htoken
      rw [singleTokenConsume, if_neg (by simp)] at h
      cases hread : readToken isSpace false input with
      | some p =>
        obtain ⟨t, r⟩ := p
        simp only [hread, Consumed.ok.injEq] at h
        obtain ⟨rfl, rfl⟩ := h
        have ht := readToken_ne_nil hread
        have hfirst : singleTokenConsume false (input ++ more) [] = .ok (r ++ more) t := by
          rw [singleTokenConsume, if_neg (by simp), readToken_append hread]
        rw [settle_found ht, settle, hfirst]
        show (singleTokenConsume true (r ++ more) t).result = _
        rw [singleTokenConsume_found ht]
        rfl
      | none =>
        simp only [hread, Bool.false_eq_true, if_false, Consumed.ok.injEq] at h
        obtain ⟨rfl, rfl⟩ := h
        have hcongr := dropWhile_dropWhile_append input more
        have hsame : singleTokenConsume false (input ++ more) [] =
            singleTokenConsume false (input.dropWhile isSpace ++ more) [] := by
          simp only [singleTokenConsume, readToken_congr hcongr, hcongr]
        rw [settle, settle, hsame]
    · rw [singleTokenConsume_found htoken] at h
      cases h
      rw [settle_found htoken, settle_found htoken]
  error {input token token'} h more := by
    unfold singleTokenConsume at h
    split at h
    · cases h
    split at h
    · cases h
    · simp at h
  undefined {input token} h more := by
    unfold singleTokenConsume at h
    split at h
    · cases h
    split at h
    · cases h
    · simp at h

end Token

/-! ## Readers of matrices -/

section Matrix

variable {T : Type} {m m' : PIDMatrixGeneric T}

theorem get_set {i j a : PID} {v : T} : (PIDMatrixGeneric.set m i j v)[a]? =
    if i = a then some ((m[i]?.getD ∅).insert j v) else m[a]? := by
  rw [PIDMatrixGeneric.set, StdMap.get_insert]
  congr

theorem insert_insert {K V : Type} [LinearOrder K] (m : StdMap K V) (k : K) (v v' : V) :
    (m.insert k v).insert k v' = m.insert k v' := by
  apply StdMap.ext_get
  intro a
  simp only [StdMap.get_insert]
  split <;> rfl

/-- Two maps that agree but for one key. -/
theorem insert_congr {K V : Type} [LinearOrder K] {m m' : StdMap K V} {k : K} {v : V}
    (h : m.insert k v = m'.insert k v) (k' : K) (v' : V) :
    (m.insert k' v').insert k v = (m'.insert k' v').insert k v := by
  apply StdMap.ext_get
  intro a
  have ha := congrArg (fun m : StdMap K V => m[a]?) h
  simp only [StdMap.get_insert] at ha ⊢
  split
  · rfl
  · next hne =>
    rw [if_neg hne, if_neg hne] at ha
    rw [ha]

theorem set_set (i j : PID) (v : T) :
    PIDMatrixGeneric.set (PIDMatrixGeneric.set m i j v) i j v = PIDMatrixGeneric.set m i j v := by
  apply StdMap.ext_get
  intro a
  simp only [get_set, if_true, Option.getD_some, insert_insert]
  split <;> rfl

theorem set_congr {i j : PID} {v : T}
    (h : PIDMatrixGeneric.set m i j v = PIDMatrixGeneric.set m' i j v) (i' j' : PID) (v' : T) :
    PIDMatrixGeneric.set (PIDMatrixGeneric.set m i' j' v') i j v =
      PIDMatrixGeneric.set (PIDMatrixGeneric.set m' i' j' v') i j v := by
  have hget : ∀ a, (if i = a then some ((m[i]?.getD ∅).insert j v) else m[a]?) =
      if i = a then some ((m'[i]?.getD ∅).insert j v) else m'[a]? := by
    intro a
    rw [← get_set, ← get_set, h]
  have hrow : (m[i]?.getD ∅).insert j v = (m'[i]?.getD ∅).insert j v := by
    simpa using hget i
  have hother : ∀ a, i ≠ a → m[a]? = m'[a]? := by
    intro a hne
    simpa [hne] using hget a
  apply StdMap.ext_get
  intro a
  simp only [get_set]
  by_cases hii : i' = i
  · subst hii
    simp only [if_true, Option.getD_some, insert_congr hrow]
    split
    · rfl
    · next hne => exact hother a hne
  · simp only [if_neg hii, hrow]
    split
    · rfl
    · next hne =>
      rw [hother a hne, hother i' (Ne.symm hii)]

end Matrix

theorem pDistanceReader_absorbing : pDistanceReader.Absorbing := by
  apply TokenReader.absorbing_of_overwrite
  · exact fun _ _ => rfl
  · exact fun _ _ => rfl
  · exact fun w m => set_set w.1 w.2.1 w.2.2
  · exact fun w w' m m' h => set_congr h w'.1 w'.2.1 w'.2.2

theorem weightsReader_absorbing (strtod : List Char → Double × List Char) :
    (weightsReader strtod).Absorbing := by
  apply TokenReader.absorbing_of_overwrite
  · exact fun _ _ => rfl
  · exact fun _ _ => rfl
  · intro w s
    cases w with
    | add src a b c => simp only [weightsReader, Weights.apply, insert_insert]
    | set src dst v => simp only [weightsReader, Weights.apply, set_set]
  · intro w w' s s' h
    cases w <;> cases w' <;>
      simp only [weightsReader, Weights.apply, Weights.mk.injEq] at h ⊢
    · exact ⟨h.1, insert_congr h.2.1 _ _, insert_congr h.2.2.1 _ _, insert_congr h.2.2.2 _ _⟩
    · rw [h.1]
      exact ⟨rfl, h.2⟩
    · obtain ⟨hset, h₁, h₂, h₃⟩ := h
      rw [h₁, h₂, h₃]
      exact ⟨hset, rfl, rfl, rfl⟩
    · exact ⟨set_congr h.1 _ _ _, h.2⟩

/-! ## All readers -/

/-- The rule for the readers of records. -/
theorem TokenReader.read_flatten {W S : Type} {R : TokenReader Char W S} (ha : R.Absorbing) (s : S)
    (chunks : List (List Char)) :
    ResponseReader.read R.consume { state := s } chunks =
      ResponseReader.read R.consume { state := s } [chunks.flatten] :=
  ResponseReader.read_flatten ha.continues.resumable (TokenReader.consume_nil s) chunks

/-- In the same memory every reader ends with the same records and the same outcome however the response
is cut. -/
theorem read_eq_read_flatten (net : AddressText) (stack : Nat → Nat)
    (strtod : List Char → Double × List Char) (weights : Weights) :
    ∀ R ∈ readers net stack strtod weights, ∀ chunks : List (List Char),
      R.read chunks = R.read [chunks.flatten] := by
  simp only [readers, List.forall_mem_cons, Reader.read]
  refine ⟨?_, ?_, ?_, ?_, ?_, ?_, ?_, ?_, ?_, ?_, ?_, nofun⟩
  · exact TokenReader.read_flatten (absorbing_of_empty _) _
  · exact TokenReader.read_flatten pDistanceReader_absorbing _
  · exact TokenReader.read_flatten (absorbing_of_empty _) _
  · exact TokenReader.read_flatten (absorbing_of_empty _) _
  · exact TokenReader.read_flatten (absorbing_of_empty _) _
  · exact TokenReader.read_flatten (absorbing_of_empty _) _
  · exact TokenReader.read_flatten (absorbing_of_empty _) _
  · exact ResponseReader.read_flatten tokenConsume_continues.resumable (tokenConsume_nil _)
  · exact ResponseReader.read_flatten singleTokenConsume_resumable rfl
  · exact TokenReader.read_flatten (absorbing_of_empty _) _
  · exact TokenReader.read_flatten (weightsReader_absorbing strtod) _

end Alto.Response
