import Mathlib
import Alto.Lib.Rounds

/-!
# Readers of tokens

A reader takes records off its input, where a record is a sequence of tokens between separators. A
program says how one record is read. A record that is not complete yet is read again from its start
when more input has come; the writes that the first try has made are then made again, so they have
to be such that this does no harm (`Absorbing`). Such a reader is `Resumable`.
-/

namespace Alto.Lib

variable {B W S : Type}

/-! ## Tokens -/

section Token

variable (sep : B → Bool)

/-- The next token and what follows it. A token at the end of the input is complete only if no more
input can come. -/
def readToken (finished : Bool) (input : List B) : Option (List B × List B) :=
  let input := input.dropWhile sep
  if input.isEmpty then none
  else
    let token := input.takeWhile fun c => !sep c
    let rest := input.dropWhile fun c => !sep c
    if rest.isEmpty && !finished then none else some (token, rest)

variable {sep} {finished : Bool} {input token rest : List B}

theorem readToken_eq_some : readToken sep finished input = some (token, rest) ↔
    token = (input.dropWhile sep).takeWhile (fun c => !sep c) ∧
      rest = (input.dropWhile sep).dropWhile (fun c => !sep c) ∧
      input.dropWhile sep ≠ [] ∧ (finished = false → rest ≠ []) := by
  unfold readToken
  dsimp only
  generalize (input.dropWhile sep).takeWhile (fun c => !sep c) = t
  generalize (input.dropWhile sep).dropWhile (fun c => !sep c) = r
  generalize input.dropWhile sep = l
  cases l with
  | nil => simp
  | cons c l =>
    cases finished <;> cases r <;> grind

theorem dropWhile_append_of_ne_nil {p : B → Bool} {l : List B} (h : l.dropWhile p ≠ [])
    (more : List B) : (l ++ more).dropWhile p = l.dropWhile p ++ more := by
  induction l with
  | nil => exact absurd rfl h
  | cons c l ih =>
    rw [List.cons_append, List.dropWhile_cons, List.dropWhile_cons]
    rw [List.dropWhile_cons] at h
    split
    · next hc => exact ih (by simpa [hc] using h)
    · rfl

theorem takeWhile_append_of_ne_nil {p : B → Bool} {l : List B} (h : l.dropWhile p ≠ [])
    (more : List B) : (l ++ more).takeWhile p = l.takeWhile p := by
  induction l with
  | nil => exact absurd rfl h
  | cons c l ih =>
    rw [List.cons_append, List.takeWhile_cons, List.takeWhile_cons]
    rw [List.dropWhile_cons] at h
    split
    · next hc => rw [ih (by simpa [hc] using h)]
    · rfl

/-- A token with something behind it is read the same way whatever else follows. -/
theorem readToken_append (h : readToken sep false input = some (token, rest)) (finished : Bool)
    (more : List B) :
    readToken sep finished (input ++ more) = some (token, rest ++ more) := by
  obtain ⟨rfl, rfl, hne, hrest⟩ := readToken_eq_some.1 h
  have hrest := hrest rfl
  rw [readToken_eq_some, dropWhile_append_of_ne_nil hne, takeWhile_append_of_ne_nil hrest,
    dropWhile_append_of_ne_nil hrest]
  exact ⟨rfl, rfl, by simp [hne], fun _ => by simp [hrest]⟩

theorem readToken_length (h : readToken sep finished input = some (token, rest)) :
    rest.length < input.length := by
  obtain ⟨rfl, rfl, hne, -⟩ := readToken_eq_some.1 h
  have hle : (input.dropWhile sep).length ≤ input.length :=
    (List.dropWhile_sublist sep).length_le
  cases hd : input.dropWhile sep with
  | nil => exact absurd hd hne
  | cons c l =>
    have hc : sep c = false := by
      have := List.head?_dropWhile_not sep input
      rw [hd] at this
      simpa using this
    have hle' : (l.dropWhile fun c => !sep c).length ≤ l.length :=
      (List.dropWhile_sublist _).length_le
    rw [hd, List.length_cons] at hle
    simp only [List.dropWhile_cons, hc, Bool.not_false, if_true]
    omega

theorem readToken_ne_nil (h : readToken sep finished input = some (token, rest)) : token ≠ [] := by
  obtain ⟨rfl, -, hne, -⟩ := readToken_eq_some.1 h
  cases hd : input.dropWhile sep with
  | nil => exact absurd hd hne
  | cons c l =>
    have hc := List.head?_dropWhile_not sep input
    rw [hd] at hc
    simp_all

end Token

/-! ## Programs -/

/-- How a record is read: `token` reads a token, which must be there if `require`; `write` writes to
the state; `done` ends the record and changes the state for good; `stop` gives up for now; `throw`
reports an error; `crash` is undefined behaviour. -/
inductive TokenProg (B W S : Type) where
  | token (require : Bool) (next : List B → TokenProg B W S)
  | write (w : W) (next : TokenProg B W S)
  | done (commit : S → S)
  | stop
  | throw
  | crash

/-- What reading a record comes to, with the writes. -/
inductive Ran (B W S : Type) where
  | done (rest : List B) (ws : List W) (commit : S → S)
  | stop (ws : List W)
  | throw (ws : List W)
  | crash

/-- A write before the others. -/
def Ran.cons (w : W) : Ran B W S → Ran B W S
  | .done rest ws commit => .done rest (w :: ws) commit
  | .stop ws => .stop (w :: ws)
  | .throw ws => .throw (w :: ws)
  | .crash => .crash

/-- The writes. -/
def Ran.writes : Ran B W S → List W
  | .done _ ws _ => ws
  | .stop ws => ws
  | .throw ws => ws
  | .crash => []

/-- Reading a record. A token that is missing stops the reader, or is an error if it is required
and no more input can come. -/
def TokenProg.run (sep : B → Bool) (finished : Bool) : TokenProg B W S → List B → Ran B W S
  | .token require next, input =>
    match readToken sep finished input with
    | some (t, rest) => (next t).run sep finished rest
    | none => if require && finished then .throw [] else .stop []
  | .write w next, input => (next.run sep finished input).cons w
  | .done commit, input => .done input [] commit
  | .stop, _ => .stop []
  | .throw, _ => .throw []
  | .crash, _ => .crash

namespace TokenProg

variable {sep : B → Bool} {prog : TokenProg B W S} {input rest : List B} {ws : List W}
  {commit : S → S}

theorem run_length {finished : Bool} (h : prog.run sep finished input = .done rest ws commit) :
    rest.length ≤ input.length := by
  induction prog generalizing input ws with
  | token require next ih =>
    rw [run] at h
    split at h
    · next hread => exact (ih _ h).trans (readToken_length hread).le
    · split at h <;> cases h
  | write w next ih =>
    rw [run] at h
    cases hr : next.run sep finished input with
    | done rest' ws' commit' =>
      rw [hr] at h
      cases h
      exact ih hr
    | stop ws => rw [hr] at h; cases h
    | throw ws => rw [hr] at h; cases h
    | crash => rw [hr] at h; cases h
  | done commit => cases h; exact le_rfl
  | stop => cases h
  | throw => cases h
  | crash => cases h

/-- How a program that has run on a part of the input runs on more of it: a record that is complete
stays the same, and so does an error; a record that is not keeps its writes. -/
def Extends (more : List B) : Ran B W S → Ran B W S → Prop
  | .done rest ws commit, r => r = .done (rest ++ more) ws commit
  | .stop ws, r => r = .crash ∨ ws <+: r.writes
  | .throw ws, r => r = .throw ws
  | .crash, r => r = .crash

theorem Extends.cons {more : List B} {r r' : Ran B W S} (w : W) (h : Extends more r r') :
    Extends more (r.cons w) (r'.cons w) := by
  cases r with
  | done rest ws commit => cases h; rfl
  | stop ws =>
    rcases h with rfl | h
    · exact .inl rfl
    · cases r' with
      | crash => exact .inl rfl
      | done rest' ws' commit' => exact .inr (List.cons_prefix_cons.2 ⟨rfl, h⟩)
      | stop ws' => exact .inr (List.cons_prefix_cons.2 ⟨rfl, h⟩)
      | throw ws' => exact .inr (List.cons_prefix_cons.2 ⟨rfl, h⟩)
  | throw ws => cases h; rfl
  | crash => cases h; rfl

theorem run_append (sep : B → Bool) (prog : TokenProg B W S) (input : List B) (finished : Bool)
    (more : List B) :
    Extends more (prog.run sep false input) (prog.run sep finished (input ++ more)) := by
  induction prog generalizing input with
  | token require next ih =>
    rw [run]
    split
    · next token rest hread =>
      rw [run, readToken_append hread]
      exact ih token rest
    · rw [Bool.and_false]
      exact .inr List.nil_prefix
  | write w next ih => exact (ih input).cons w
  | done commit => rfl
  | stop => exact .inr List.nil_prefix
  | throw => rfl
  | crash => rfl

end TokenProg

/-! ## Readers -/

/-- A reader: the program for the next record depends on the state and starts with a token. -/
structure TokenReader (B W S : Type) where
  sep : B → Bool
  apply : W → S → S
  require : S → Bool
  record : S → List B → TokenProg B W S

namespace TokenReader

variable (R : TokenReader B W S)

/-- All writes of a record. -/
def applyAll (ws : List W) (s : S) : S :=
  ws.foldl (fun s w => R.apply w s) s

/-- The program for the next record. -/
def body (s : S) : TokenProg B W S :=
  .token (R.require s) (R.record s)

/-- A round of the reader's loop: the next record. -/
def round (finished : Bool) (input : List B) (s : S) : Round B S :=
  match (R.body s).run R.sep finished input with
  | .done rest ws commit => .done rest (commit (R.applyAll ws s))
  | .stop ws => .stop (R.applyAll ws s)
  | .throw ws => .error (R.applyAll ws s)
  | .crash => .undefined

/-- A call of the reader. -/
def consume (finished : Bool) (input : List B) (s : S) : Consumed B S :=
  roundsConsume (R.round finished) input s

/-- It does no harm to make the writes of a record twice, and they do not change how it is read. -/
structure Absorbing : Prop where
  require : ∀ w s, R.require (R.apply w s) = R.require s
  record : ∀ w s, R.record (R.apply w s) = R.record s
  twice : ∀ ws s, R.applyAll ws (R.applyAll ws s) = R.applyAll ws s

/-- Writes that overwrite: a write that is made again hides what it wrote first, whatever was
written in between. -/
theorem absorbing_of_overwrite (hrequire : ∀ w s, R.require (R.apply w s) = R.require s)
    (hrecord : ∀ w s, R.record (R.apply w s) = R.record s)
    (hidem : ∀ w s, R.apply w (R.apply w s) = R.apply w s)
    (hcongr : ∀ w w' s s', R.apply w s = R.apply w s' →
      R.apply w (R.apply w' s) = R.apply w (R.apply w' s')) : R.Absorbing where
  require := hrequire
  record := hrecord
  twice := by
    have hall : ∀ w ws s s', R.apply w s = R.apply w s' →
        R.apply w (R.applyAll ws s) = R.apply w (R.applyAll ws s') := by
      intro w ws
      induction ws with
      | nil => exact fun _ _ h => h
      | cons w' ws ih => exact fun s s' h => ih _ _ (hcongr w w' s s' h)
    have hhide : ∀ ws w, w ∈ ws → ∀ s, R.applyAll ws (R.apply w s) = R.applyAll ws s := by
      intro ws
      induction ws using List.reverseRecOn with
      | nil => exact fun w hw => nomatch hw
      | append_singleton ws w' ih =>
        intro w hw s
        have hlast : ∀ s, R.applyAll (ws ++ [w']) s = R.apply w' (R.applyAll ws s) := by
          intro s
          simp [applyAll]
        rw [hlast, hlast]
        rcases List.mem_append.1 hw with hw | hw
        · rw [ih w hw]
        · rw [List.mem_singleton.1 hw]
          exact hall w' ws _ _ (hidem w' s)
    intro ws s
    have hsub : ∀ ws' ws, ws' ⊆ ws → ∀ s, R.applyAll ws (R.applyAll ws' s) = R.applyAll ws s := by
      intro ws' ws
      induction ws' using List.reverseRecOn with
      | nil => exact fun _ _ => rfl
      | append_singleton ws' w ih =>
        intro hsub s
        have hlast : R.applyAll (ws' ++ [w]) s = R.apply w (R.applyAll ws' s) := by
          simp [applyAll]
        rw [hlast, hhide ws w (hsub (by simp))]
        exact ih (fun x hx => hsub (by simp [hx])) s
    exact hsub ws ws (fun _ h => h) s

variable {R} {finished : Bool} {input rest : List B} {s s' : S}

theorem body_length {ws : List W} {commit : S → S}
    (h : (R.body s).run R.sep finished input = .done rest ws commit) :
    rest.length < input.length := by
  rw [body, TokenProg.run] at h
  split at h
  · next hread => exact lt_of_le_of_lt (TokenProg.run_length h) (readToken_length hread)
  · split at h <;> cases h

theorem round_shrinks : Shrinks (R.round finished) := by
  intro input s rest s' h
  unfold round at h
  split at h
  · next hrun =>
    cases h
    exact body_length hrun
  · cases h
  · cases h
  · cases h

/-- One record of a call. -/
theorem consume_eq : R.consume finished input s =
    match (R.body s).run R.sep finished input with
    | .done rest ws commit => R.consume finished rest (commit (R.applyAll ws s))
    | .stop ws => .ok input (R.applyAll ws s)
    | .throw ws => .error (R.applyAll ws s)
    | .crash => .undefined := by
  rw [consume, roundsConsume_eq round_shrinks, round]
  cases (R.body s).run R.sep finished input <;> rfl

theorem applyAll_append (ws ws' : List W) (s : S) :
    R.applyAll (ws ++ ws') s = R.applyAll ws' (R.applyAll ws s) :=
  List.foldl_append

theorem Absorbing.body_applyAll (ha : R.Absorbing) (ws : List W) (s : S) :
    R.body (R.applyAll ws s) = R.body s := by
  induction ws generalizing s with
  | nil => rfl
  | cons w ws ih =>
    rw [applyAll, List.foldl_cons]
    refine (ih (R.apply w s)).trans ?_
    rw [body, body, ha.require, ha.record]

/-- Reading a record again after its first writes. -/
theorem Absorbing.round_again (ha : R.Absorbing) {ws : List W}
    (h : (R.body s).run R.sep finished input = .crash ∨
      ws <+: ((R.body s).run R.sep finished input).writes) :
    R.round finished input (R.applyAll ws s) = R.round finished input s := by
  have hagain : ∀ ws', ws <+: ws' → R.applyAll ws' (R.applyAll ws s) = R.applyAll ws' s := by
    rintro ws' ⟨more, rfl⟩
    rw [applyAll_append, ha.twice, ← applyAll_append]
  rw [round, round, ha.body_applyAll]
  cases hrun : (R.body s).run R.sep finished input with
  | crash => rfl
  | done rest ws' commit =>
    simp only [hrun, Ran.writes, reduceCtorEq, false_or] at h
    simp only [hagain ws' h]
  | stop ws' =>
    simp only [hrun, Ran.writes, reduceCtorEq, false_or] at h
    simp only [hagain ws' h]
  | throw ws' =>
    simp only [hrun, Ran.writes, reduceCtorEq, false_or] at h
    simp only [hagain ws' h]

/-- The rounds of a reader when more input has come. -/
theorem Absorbing.round_extends (ha : R.Absorbing) :
    Extends (fun _ => True) (R.round false) (R.round false) := by
  have hext : ∀ input s more, TokenProg.Extends more ((R.body s).run R.sep false input)
      ((R.body s).run R.sep false (input ++ more)) :=
    fun input s more => TokenProg.run_append R.sep (R.body s) input false more
  constructor
  · intro input s rest s' _ h
    refine ⟨trivial, fun more => ?_⟩
    have hmore := hext input s more
    unfold round at h ⊢
    split at h
    · next hrun =>
      rw [hrun] at hmore
      cases h
      simp only [show _ = _ from hmore]
    all_goals cases h
  · intro input s s' _ h more
    have hmore := hext input s more
    unfold round at h
    split at h
    · cases h
    · next hrun =>
      rw [hrun] at hmore
      cases h
      exact ha.round_again hmore
    all_goals cases h
  · intro input s s' _ h
    unfold round at h
    split at h <;> cases h
  · intro input s s' _ h more
    have hmore := hext input s more
    unfold round at h ⊢
    split at h
    · cases h
    · cases h
    · next hrun =>
      rw [hrun] at hmore
      cases h
      simp only [show _ = _ from hmore]
    · cases h
  · intro input s _ h more
    have hmore := hext input s more
    unfold round at h ⊢
    split at h
    · cases h
    · cases h
    · cases h
    · next hrun =>
      rw [hrun] at hmore
      simp only [show _ = _ from hmore]

theorem Absorbing.continues (ha : R.Absorbing) : Continues (R.consume false) :=
  ha.round_extends.continues round_shrinks

theorem consume_nil (s : S) : R.consume false [] s = .ok [] s := by
  simp [consume_eq, body, TokenProg.run, readToken, applyAll]

/-- The whole input in one chunk and the end are one call at the end. -/
theorem Absorbing.settle_eq (ha : R.Absorbing) (input : List B) (s : S) :
    settle R.consume input s = (R.consume true input s).result := by
  induction hn : input.length using Nat.strong_induction_on generalizing input s with
  | _ n ih =>
    have hext := TokenProg.run_append R.sep (R.body s) input true []
    rw [List.append_nil] at hext
    cases hrun : (R.body s).run R.sep false input with
    | done rest ws commit =>
      rw [hrun] at hext
      have hlt := body_length hrun
      have hrest := ih rest.length (hn ▸ hlt) rest (commit (R.applyAll ws s)) rfl
      have hext : (R.body s).run R.sep true input = .done rest ws commit := by
        simpa using (show _ = _ from hext)
      rw [settle] at hrest ⊢
      rw [consume_eq, hrun, (consume_eq : R.consume true input s = _), hext]
      exact hrest
    | stop ws =>
      rw [hrun] at hext
      rw [settle, consume_eq, hrun]
      show (roundsConsume (R.round true) input (R.applyAll ws s)).result =
        (roundsConsume (R.round true) input s).result
      rw [roundsConsume_eq round_shrinks, roundsConsume_eq round_shrinks, ha.round_again hext]
    | throw ws =>
      rw [hrun] at hext
      rw [settle, consume_eq, hrun, (consume_eq : R.consume true input s = _), show _ = _ from hext]
      show (R.consume true [] (R.applyAll ws s)).resultFailed = _
      rw [consume_eq, body, TokenProg.run, readToken]
      cases R.require (R.applyAll ws s) <;> rfl
    | crash =>
      rw [hrun] at hext
      rw [settle, consume_eq, hrun, (consume_eq : R.consume true input s = _), show _ = _ from hext]
      rfl

end TokenReader

end Alto.Lib
