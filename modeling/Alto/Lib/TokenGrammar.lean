import Mathlib
import Alto.Lib.TokenReader

/-!
# Grammars of records

The input of a token reader as the list of its tokens (`tokens`), and a grammar for its records:
which kinds of tokens a record has, and what becomes of their values. A kind of token has a
conversion, and says when a conversion is complete (`TokenKinds`). The reader of a grammar takes
every value that a conversion gives; the records of the grammar (`RecordGrammar.Records`) have
complete conversions only. If each token that is reached is converted completely or refused, then
the reader takes nothing but records (`RecordGrammar.consume_cases`); and it takes all of them
(`RecordGrammar.consume_of_records`).
-/

namespace Alto.Lib

variable {B W S K : Type}

/-! ## Tokens -/

section Tokens

variable (sep : B → Bool)

/-- The tokens of the whole input. -/
def tokens (input : List B) : List (List B) :=
  (input.splitOnP sep).filter fun t => !t.isEmpty

variable {sep} {input token rest : List B}

theorem tokens_dropWhile (input : List B) : tokens sep (input.dropWhile sep) = tokens sep input := by
  induction input with
  | nil => rfl
  | cons c input ih =>
    rw [List.dropWhile_cons]
    split
    · next hc =>
      rw [ih, tokens, tokens, List.splitOnP_cons_eq_if_modifyHead, if_pos hc, List.filter_cons_of_neg (by simp)]
    · rfl

theorem tokens_of_readToken (h : readToken sep true input = some (token, rest)) :
    tokens sep input = token :: tokens sep rest := by
  obtain ⟨htoken, hrest, hne, -⟩ := readToken_eq_some.1 h
  have hnot : ∀ c ∈ token, sep c = false := by
    intro c hc
    rw [htoken] at hc
    simpa using List.mem_takeWhile_imp hc
  have hsplit : input.dropWhile sep = token ++ rest := by
    rw [htoken, hrest, List.takeWhile_append_dropWhile]
  have hempty : token.isEmpty = false := by simpa using readToken_ne_nil h
  rw [← tokens_dropWhile, hsplit]
  cases hr : rest with
  | nil =>
    rw [List.append_nil, tokens, List.splitOnP_eq_singleton hnot,
      List.filter_cons_of_pos (by simp [hempty])]
    rfl
  | cons c more =>
    have hc : sep c = true := by
      have := List.head?_dropWhile_not (fun c => !sep c) (input.dropWhile sep)
      rw [← hrest, hr] at this
      simpa using this
    rw [tokens, List.splitOnP_append_cons_of_forall_mem hnot c hc,
      List.filter_cons_of_pos (by simp [hempty]), tokens, List.splitOnP_cons_eq_if_modifyHead, if_pos hc,
      List.filter_cons_of_neg (by simp)]

theorem readToken_eq_none : readToken sep true input = none ↔ tokens sep input = [] := by
  constructor
  · intro h
    have hnil : input.dropWhile sep = [] := by
      by_contra hne
      rw [readToken] at h
      simp [hne] at h
    rw [← tokens_dropWhile, hnil]
    rfl
  · intro h
    cases hr : readToken sep true input with
    | none => rfl
    | some p => rw [tokens_of_readToken hr] at h; cases h

/-- The next token of the input, if there is one. -/
theorem readToken_cases (sep : B → Bool) (input : List B) :
    readToken sep true input = none ∧ tokens sep input = [] ∨
      ∃ token rest, readToken sep true input = some (token, rest) ∧
        tokens sep input = token :: tokens sep rest := by
  cases hr : readToken sep true input with
  | none => exact .inl ⟨rfl, readToken_eq_none.1 hr⟩
  | some p => exact .inr ⟨p.1, p.2, rfl, tokens_of_readToken hr⟩

end Tokens

/-! ## Kinds of tokens -/

/-- What the conversion of a token comes to: a value; giving up for now; an error that is reported;
or undefined behaviour. -/
inductive Cast (V : Type) where
  | value (v : V)
  | stop
  | throw
  | crash

/-- The kinds of tokens: the type of the value, the conversion, and whether the value is all that
the token says. -/
structure TokenKinds (B K : Type) where
  V : K → Type
  cast : (k : K) → List B → Cast (V k)
  Whole : (k : K) → List B → V k → Prop

namespace TokenKinds

variable (T : TokenKinds B K) (k : K) (token : List B)

/-- The token denotes this value, and the conversion gives it. -/
def Complete (v : T.V k) : Prop := T.cast k token = .value v ∧ T.Whole k token v

/-- The token is converted completely, or refused. -/
def Handled : Prop := (∃ v, T.Complete k token v) ∨ T.cast k token = .throw

/-- The conversion of a token inside a program. -/
def prog (next : T.V k → TokenProg B W S) : TokenProg B W S :=
  match T.cast k token with
  | .value v => next v
  | .stop => .stop
  | .throw => .throw
  | .crash => .crash

end TokenKinds

/-! ## Grammars -/

/-- The rest of a record: a token of some kind; a write; or the end of the record, with what it does
to the state. -/
inductive Grammar (T : TokenKinds B K) (W S : Type) where
  | token (k : K) (next : T.V k → Grammar T W S)
  | write (w : W) (next : Grammar T W S)
  | done (commit : S → S)

namespace Grammar

variable {T : TokenKinds B K}

/-- The program that reads the rest of a record. -/
def prog : Grammar T W S → TokenProg B W S
  | .token k next => .token true fun t => T.prog k t fun v => (next v).prog
  | .write w next => .write w next.prog
  | .done commit => .done commit

/-- The tokens start with the rest of a record: its writes, its commit, and the tokens behind it. -/
inductive Reads : Grammar T W S → List (List B) → List W → (S → S) → List (List B) → Prop
  | token {k next t ts v ws commit rest} (complete : T.Complete k t v)
      (reads : Reads (next v) ts ws commit rest) : Reads (.token k next) (t :: ts) ws commit rest
  | write {w next ts ws commit rest} (reads : Reads next ts ws commit rest) :
      Reads (.write w next) ts (w :: ws) commit rest
  | done {commit ts} : Reads (.done commit) ts [] commit ts

/-- Behind complete conversions of the tokens in front, the record has a token of this kind here. -/
inductive Comes : Grammar T W S → List (List B) → (k : K) → List B → Prop
  | here {k next t ts} : Comes (.token k next) (t :: ts) k t
  | token {k next t ts v k' t'} (complete : T.Complete k t v) (comes : Comes (next v) ts k' t') :
      Comes (.token k next) (t :: ts) k' t'
  | write {w next ts k t} (comes : Comes next ts k t) : Comes (.write w next) ts k t

/-- A token that comes is this one, or comes behind its value. -/
theorem Comes.behind {k k' : K} {next : T.V k → Grammar T W S} {t t' : List B} {ts : List (List B)}
    {v : T.V k} (h : (Grammar.token k next).Comes (t :: ts) k' t') (hv : T.cast k t = .value v) :
    (k' = k ∧ t' = t) ∨ (next v).Comes ts k' t' := by
  cases h with
  | here => exact .inl ⟨rfl, rfl⟩
  | token complete comes =>
    obtain rfl := Cast.value.inj (hv.symm.trans complete.1)
    exact .inr comes

theorem Reads.behind {k : K} {next : T.V k → Grammar T W S} {t : List B} {ts rest : List (List B)}
    {v : T.V k} {ws : List W} {commit : S → S}
    (h : (Grammar.token k next).Reads (t :: ts) ws commit rest) (hv : T.cast k t = .value v) :
    (next v).Reads ts ws commit rest := by
  cases h with
  | token complete reads =>
    obtain rfl := Cast.value.inj (hv.symm.trans complete.1)
    exact reads

variable {g : Grammar T W S} {sep : B → Bool} {input : List B}

/-- The rest of a record is read as the grammar says, or there is an error. -/
theorem run_cases (h : ∀ k t, g.Comes (tokens sep input) k t → T.Handled k t) :
    (∃ rest ws commit, g.prog.run sep true input = .done rest ws commit ∧
      g.Reads (tokens sep input) ws commit (tokens sep rest)) ∨
      ∃ ws, g.prog.run sep true input = .throw ws := by
  induction g generalizing input with
  | token k next ih =>
    rw [prog, TokenProg.run]
    rcases readToken_cases sep input with ⟨hread, -⟩ | ⟨t, rest, hread, htokens⟩
    · exact .inr ⟨[], by simp [hread]⟩
    rw [htokens] at h ⊢
    simp only [hread, TokenKinds.prog]
    rcases h k t .here with ⟨v, hv⟩ | hthrow
    · simp only [hv.1]
      rcases ih v fun k' t' hc => h k' t' (.token hv hc) with ⟨rest', ws, commit, hrun, hreads⟩ | herr
      · exact .inl ⟨rest', ws, commit, hrun, .token hv hreads⟩
      · exact .inr herr
    · exact .inr ⟨[], by simp only [hthrow]; rfl⟩
  | write w next ih =>
    rw [prog, TokenProg.run]
    rcases ih fun k t hc => h k t (.write hc) with ⟨rest, ws, commit, hrun, hreads⟩ | ⟨ws, hrun⟩
    · exact .inl ⟨rest, w :: ws, commit, by rw [hrun]; rfl, .write hreads⟩
    · exact .inr ⟨w :: ws, by rw [hrun]; rfl⟩
  | done commit => exact .inl ⟨input, [], commit, rfl, .done⟩

/-- What the grammar says is read. -/
theorem run_of_reads {ts : List (List B)} {ws : List W} {commit : S → S}
    (h : g.Reads (tokens sep input) ws commit ts) :
    ∃ rest, g.prog.run sep true input = .done rest ws commit ∧ tokens sep rest = ts := by
  generalize htokens : tokens sep input = ts' at h
  induction h generalizing input with
  | @token k next t ts v ws commit rest hv _ ih =>
    rcases readToken_cases sep input with ⟨-, hnil⟩ | ⟨t', rest', hread, hcons⟩
    · rw [hnil] at htokens
      cases htokens
    · rw [hcons] at htokens
      obtain rfl := (List.cons.inj htokens).1
      obtain ⟨rest'', hrun, hrest⟩ := ih (List.cons.inj htokens).2
      refine ⟨rest'', ?_, hrest⟩
      rw [prog, TokenProg.run]
      simpa only [hread, TokenKinds.prog, hv.1] using hrun
  | write _ ih =>
    obtain ⟨rest, hrun, hrest⟩ := ih htokens
    exact ⟨rest, by rw [prog, TokenProg.run, hrun]; rfl, hrest⟩
  | done => exact ⟨input, rfl, htokens⟩

end Grammar

/-! ## Readers -/

/-- A record, which starts with a token. -/
structure RecordStart (T : TokenKinds B K) (W S : Type) where
  kind : K
  next : T.V kind → Grammar T W S

/-- The grammar of a text: what the next record is depends on the state. -/
structure RecordGrammar (T : TokenKinds B K) (W S : Type) where
  sep : B → Bool
  apply : W → S → S
  require : S → Bool
  record : S → RecordStart T W S

namespace RecordGrammar

variable {T : TokenKinds B K} (G : RecordGrammar T W S)

/-- The reader of the grammar. -/
def reader : TokenReader B W S where
  sep := G.sep
  apply := G.apply
  require := G.require
  record s t := T.prog (G.record s).kind t fun v => ((G.record s).next v).prog

/-- The next record as a grammar. -/
def body (s : S) : Grammar T W S :=
  .token (G.record s).kind (G.record s).next

/-- The tokens are records up to the end, and this is the state behind them. -/
inductive Records : List (List B) → S → S → Prop
  | nil {s} (ended : G.require s = false) : Records [] s s
  | record {ts ws commit rest s s'} (reads : (G.body s).Reads ts ws commit rest)
      (more : Records rest (commit (G.reader.applyAll ws s)) s') : Records ts s s'

/-- Behind records in front, there is a token of this kind here. -/
inductive Comes : List (List B) → S → (k : K) → List B → Prop
  | here {ts s k t} (comes : (G.body s).Comes ts k t) : Comes ts s k t
  | record {ts ws commit rest s k t} (reads : (G.body s).Reads ts ws commit rest)
      (comes : Comes rest (commit (G.reader.applyAll ws s)) k t) : Comes ts s k t

variable {G} {input : List B} {s : S}

/-- The program for the next record reads as the grammar does, but for a first token that is
missing. -/
theorem run_body (htokens : tokens G.sep input ≠ []) :
    (G.reader.body s).run G.reader.sep true input = (G.body s).prog.run G.sep true input := by
  rcases readToken_cases G.sep input with ⟨-, hnil⟩ | ⟨t, rest, hread, -⟩
  · exact absurd hnil htokens
  · have hsep : G.reader.sep = G.sep := rfl
    rw [TokenReader.body, body, Grammar.prog, TokenProg.run, TokenProg.run, hsep]
    simp only [hread]
    rfl

theorem run_body_nil (htokens : tokens G.sep input = []) :
    (G.reader.body s).run G.reader.sep true input =
      if G.require s then .throw [] else .stop [] := by
  have hsep : G.reader.sep = G.sep := rfl
  rw [TokenReader.body, TokenProg.run, hsep, readToken_eq_none.2 htokens]
  simp [reader]

/-- The whole text consists of records, or there is an error. -/
theorem consume_cases (h : ∀ k t, G.Comes (tokens G.sep input) s k t → T.Handled k t) :
    (∃ rest s', G.reader.consume true input s = .ok rest s' ∧
      G.Records (tokens G.sep input) s s') ∨
      ∃ s', G.reader.consume true input s = .error s' := by
  induction hn : input.length using Nat.strong_induction_on generalizing input s with
  | _ n ih =>
    by_cases htokens : tokens G.sep input = []
    · rw [TokenReader.consume_eq, run_body_nil htokens, htokens]
      cases hrequire : G.require s with
      | false => exact .inl ⟨input, s, rfl, .nil hrequire⟩
      | true => exact .inr ⟨s, rfl⟩
    · rcases Grammar.run_cases fun k t hc => h k t (.here hc) with
        ⟨rest, ws, commit, hrun, hreads⟩ | ⟨ws, hrun⟩
      · rw [← run_body htokens] at hrun
        have hlt := TokenReader.body_length hrun
        rw [TokenReader.consume_eq, hrun]
        rcases ih rest.length (hn ▸ hlt) (fun k t hc => h k t (.record hreads hc)) rfl with
          ⟨rest', s', hconsume, hrecords⟩ | herr
        · exact .inl ⟨rest', s', hconsume, .record hreads hrecords⟩
        · exact .inr herr
      · rw [TokenReader.consume_eq, run_body htokens, hrun]
        exact .inr ⟨_, rfl⟩

/-- Records are read. -/
theorem consume_of_records {s' : S} (h : G.Records (tokens G.sep input) s s') :
    ∃ rest, G.reader.consume true input s = .ok rest s' := by
  generalize htokens : tokens G.sep input = ts at h
  induction h generalizing input with
  | nil hended =>
    refine ⟨input, ?_⟩
    rw [TokenReader.consume_eq, run_body_nil htokens, hended]
    rfl
  | @record ts ws commit rest s s' hreads _ ih =>
    have hne : tokens G.sep input ≠ [] := by
      rw [htokens]
      cases hreads
      nofun
    obtain ⟨rest', hrun, hrest⟩ := Grammar.run_of_reads (htokens ▸ hreads)
    rw [TokenReader.consume_eq, run_body hne, hrun]
    exact ih hrest

end RecordGrammar

end Alto.Lib
