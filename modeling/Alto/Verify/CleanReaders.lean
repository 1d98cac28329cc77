import Alto.Lib.TokenGrammar
import Alto.Verify.IStream
import Alto.Verify.ResponseReader

/-!
# What the readers of responses make of other texts

The grammar of each response, whose reader is the one of the source, and the complete conversions of
its tokens. The conversions by streams write to a null pointer where they fail, and take the front of
a token; the length of a prefix is cut, a negative number wraps around, `to_double` stops at a null
character and ignores the range. A wrong letter in front of a percentage looks like missing input, and
the reader of a single token drops what follows.
-/

namespace Alto.Response

open Lib

/-! ## Kinds of tokens -/

/-- What the readers take from outside: the C library, with whether `strtod` reports a number out of
range, and the contents of uninitialised memory. -/
structure Environment where
  net : AddressText
  stack : Nat → Nat
  strtod : List Char → Double × List Char
  erange : List Char → Bool

/-- The kinds of tokens. A prefix comes with the prefixes of its record that have been read, and
`nothing` stands where no token may be. -/
inductive Kind where
  | word
  | indicator
  | flag
  | letter (c : Char)
  | pid
  | unsigned
  | ipPrefix (seen : Finset ReadPrefix) (constructed : Nat)
  | double
  | nothing

/-- What the tokens of a kind denote. -/
def Kind.Value : Kind → Type
  | word => List Char
  | indicator => Bool
  | flag => Bool
  | letter _ => Unit
  | pid => PID
  | unsigned => Nat
  | ipPrefix _ _ => IPPrefix
  | double => Double
  | nothing => Unit

/-- The integer that a whole text denotes: decimal digits with an optional sign. -/
def numeral (text : List Char) : Option Int :=
  let digits := IStream.unsign text
  if digits ≠ [] ∧ digits.all Char.isDigit then
    let value := Nat.ofDigitChars 10 digits 0
    some (if text.head? = some '-' then -(value : Int) else value)
  else none

/-- A stream extraction by `p4p_token_cast`. -/
def Cast.ofStream {V : Type} : Option V → Cast V
  | some v => .value v
  | none => .crash

section Kinds

variable (env : Environment)

/-- The conversions of the readers. -/
def convert : (k : Kind) → List Char → Cast k.Value
  | .word, t => .value t
  | .indicator, t => .value (t == "external".toList)
  | .flag, t =>
    if t = "inc-reverse".toList then .value true
    else if t = "no-reverse".toList then .value false
    else .throw
  | .letter c, t => if t = [c] then .value () else .stop
  | .pid, t => Cast.ofStream (castPID t)
  | .unsigned, t => Cast.ofStream (castUnsigned t)
  | .ipPrefix _ _, t => Cast.ofStream (castPrefix env.net t)
  | .double, t =>
    match toDouble env.strtod t with
    | some d => .value d
    | none => .throw
  | .nothing, _ => .stop

/-- The length behind the last slash, if there is one, is the length of the prefix. -/
def WholeLength (t : List Char) (p : IPPrefix) : Prop :=
  match IPPrefix.splitSlash t with
  | some (_, c :: length) => numeral (c :: length) = some (p.length : Int)
  | _ => True

/-- The value is what the whole token says. -/
def Whole : (k : Kind) → List Char → k.Value → Prop
  | .word, _, _ => True
  | .indicator, t, _ => t = "external".toList ∨ t = "internal".toList
  | .flag, _, _ => True
  | .letter _, _, _ => True
  | .pid, t, p => numeral (t.takeWhile (· != '.')) = some (PID.num p : Int)
  | .unsigned, t, n => numeral t = some (Int.ofNat n)
  | .ipPrefix seen constructed, t, p =>
    '\x00' ∉ t ∧ WholeLength t p ∧ readPrefix env.stack constructed p ∉ seen
  | .double, t, _ => '\x00' ∉ t ∧ env.erange t = false
  | .nothing, _, _ => False

/-- The kinds with their conversions. -/
def kinds : TokenKinds Char Kind where
  V := Kind.Value
  cast := convert env
  Whole := Whole env

end Kinds

/-! ## Grammars -/

section Grammars

variable (env : Environment)

/-- Records that are appended to a list. -/
def listGrammar {Out : Type} (record : RecordStart (kinds env) Empty (List Out)) :
    RecordGrammar (kinds env) Empty (List Out) where
  sep := isSpace
  apply w := w.elim
  require _ := false
  record _ := record

/-- The end of such a record. -/
def emitted {Out : Type} (out : Out) : Grammar (kinds env) Empty (List Out) :=
  .done (· ++ [out])

/-- An address and its PID. -/
def addressPIDGrammar : RecordGrammar (kinds env) Empty (List (List Char × PID)) :=
  listGrammar env ⟨.word, fun addr => .token .pid fun pid => emitted env (addr, pid)⟩

/-- A node, and whether it is external. -/
def netNodeGrammar : RecordGrammar (kinds env) Empty (List (List Char × Bool)) :=
  listGrammar env ⟨.word, fun name => .token .indicator fun ext => emitted env (name, ext)⟩

/-- A link with its ends. -/
def linkGrammar : RecordGrammar (kinds env) Empty (List (List Char × List Char × List Char)) :=
  listGrammar env ⟨.word, fun name =>
    .token .word fun src => .token .word fun dst => emitted env (name, src, dst)⟩

/-- A PID. -/
def pidGrammar : RecordGrammar (kinds env) Empty (List PID) :=
  listGrammar env ⟨.pid, fun pid => emitted env pid⟩

/-- A word. -/
def tokenGrammar : RecordGrammar (kinds env) Empty (List (List Char)) :=
  listGrammar env ⟨.word, fun t => emitted env t⟩

/-- Exactly one word. -/
def singleTokenGrammar : RecordGrammar (kinds env) Empty (List Char) where
  sep := isSpace
  apply w := w.elim
  require token := token.isEmpty
  record token :=
    if token = [] then ⟨.word, fun t => .done fun _ => t⟩ else ⟨.nothing, fun _ => .done id⟩

/-- The destinations of a source. -/
def pDistanceDstsGrammar (src : PID) (reverse : Bool) :
    Nat → Grammar (kinds env) (PID × PID × Nat) (PIDMatrixGeneric Nat)
  | 0 => .done id
  | n + 1 =>
    .token .pid fun dst =>
      .token .unsigned fun cost =>
        .write (src, dst, cost)
          (if reverse then
            .token .unsigned fun cost =>
              .write (dst, src, cost) (pDistanceDstsGrammar src reverse n)
          else pDistanceDstsGrammar src reverse n)

/-- A source with its destinations. -/
def pDistanceGrammar : RecordGrammar (kinds env) (PID × PID × Nat) (PIDMatrixGeneric Nat) where
  sep := isSpace
  apply w m := PIDMatrixGeneric.set m w.1 w.2.1 w.2.2
  require _ := false
  record _ := ⟨.pid, fun src =>
    .token .flag fun reverse =>
      .token .unsigned fun numDsts => pDistanceDstsGrammar env src reverse numDsts⟩

/-- The weights of a source. -/
def weightsDstsGrammar (src : PID) : Nat → Grammar (kinds env) WeightsWrite Weights
  | 0 => .done id
  | n + 1 =>
    .token .pid fun dst =>
      .token .double fun weight =>
        .write (.set src dst weight) (weightsDstsGrammar src n)

/-- A percentage behind its letter. -/
def percentageGrammar (c : Char) (next : Double → Grammar (kinds env) WeightsWrite Weights) :
    Grammar (kinds env) WeightsWrite Weights :=
  .token (.letter c) fun _ => .token .double next

/-- A source with its percentages and weights. -/
def weightsGrammar : RecordGrammar (kinds env) WeightsWrite Weights where
  sep := isSpace
  apply := Weights.apply
  require _ := false
  record _ := ⟨.pid, fun src =>
    percentageGrammar env 'p' fun intrapid =>
      percentageGrammar env 'i' fun intradomain =>
        percentageGrammar env 'e' fun interdomain =>
          .write (.add src intrapid intradomain interdomain)
            (.token .unsigned fun dstCount => weightsDstsGrammar env src dstCount)⟩

/-- A PID with its prefixes, a token at a time. -/
def pidMapGrammar : RecordGrammar (kinds env) Empty PIDMap where
  sep := isSpace
  apply w := w.elim
  require s := s.pidState != 0
  record s :=
    match s.pidState with
    | 0 => ⟨.pid, fun pid => .done (PIDMap.setPID pid)⟩
    | 1 => ⟨.unsigned, fun n => .done (PIDMap.setCount n)⟩
    | _ => ⟨.ipPrefix s.curRecord.prefixes s.constructed,
        fun p => .done (PIDMap.addPrefix env.stack p)⟩

end Grammars

/-! ## The readers of the grammars -/

section Readers

variable {env : Environment} {W S : Type} {token : List Char}

theorem prog_pid (next : (kinds env).V .pid → TokenProg Char W S) :
    (kinds env).prog .pid token next = pidOf token next := by
  unfold TokenKinds.prog pidOf
  dsimp only [kinds, convert]
  cases castPID token <;> rfl

theorem prog_unsigned (next : (kinds env).V .unsigned → TokenProg Char W S) :
    (kinds env).prog .unsigned token next = unsignedOf token next := by
  unfold TokenKinds.prog unsignedOf
  dsimp only [kinds, convert]
  cases castUnsigned token <;> rfl

theorem prog_ipPrefix {seen : Finset ReadPrefix} {constructed : Nat}
    (next : (kinds env).V (.ipPrefix seen constructed) → TokenProg Char W S) :
    (kinds env).prog (.ipPrefix seen constructed) token next = prefixOf env.net token next := by
  unfold TokenKinds.prog prefixOf
  dsimp only [kinds, convert]
  cases castPrefix env.net token <;> rfl

theorem prog_double (next : (kinds env).V .double → TokenProg Char W S) :
    (kinds env).prog .double token next = doubleOf env.strtod token next := by
  unfold TokenKinds.prog doubleOf
  dsimp only [kinds, convert]
  cases toDouble env.strtod token <;> rfl

theorem prog_letter {c : Char} (next : (kinds env).V (.letter c) → TokenProg Char W S) :
    (kinds env).prog (.letter c) token next = if token = [c] then next () else .stop := by
  unfold TokenKinds.prog
  dsimp only [kinds, convert]
  by_cases h : token = [c]
  · rw [if_pos h, if_pos h]
  · rw [if_neg h, if_neg h]

theorem prog_flag (next : (kinds env).V .flag → TokenProg Char W S) :
    (kinds env).prog .flag token next =
      if token = "inc-reverse".toList then next true
      else if token = "no-reverse".toList then next false
      else .throw := by
  unfold TokenKinds.prog
  dsimp only [kinds, convert]
  by_cases h : token = "inc-reverse".toList
  · rw [if_pos h, if_pos h]
  rw [if_neg h, if_neg h]
  by_cases h' : token = "no-reverse".toList
  · rw [if_pos h', if_pos h']
  · rw [if_neg h', if_neg h']

theorem addressPIDGrammar_reader : (addressPIDGrammar env).reader = addressPIDReader := by
  simp only [RecordGrammar.reader, addressPIDGrammar, listGrammar, Grammar.prog, prog_pid]
  rfl

theorem pidGrammar_reader : (pidGrammar env).reader = pidReader := by
  simp only [RecordGrammar.reader, pidGrammar, listGrammar, prog_pid]
  rfl

theorem pDistanceDstsGrammar_prog (src : PID) (reverse : Bool) (n : Nat) :
    (pDistanceDstsGrammar env src reverse n).prog = pDistanceDsts src reverse n := by
  induction n with
  | zero => rfl
  | succ n ih =>
    cases reverse <;>
      simp only [pDistanceDstsGrammar, pDistanceDsts, Grammar.prog, prog_pid, prog_unsigned, ih,
        Bool.false_eq_true, if_true, if_false] <;>
      rfl

theorem weightsDstsGrammar_prog (src : PID) (n : Nat) :
    (weightsDstsGrammar env src n).prog = weightsDsts env.strtod src n := by
  induction n with
  | zero => rfl
  | succ n ih =>
    simp only [weightsDstsGrammar, weightsDsts, Grammar.prog, prog_pid, prog_double, ih]
    rfl

theorem percentageGrammar_prog (c : Char)
    (next : Double → Grammar (kinds env) WeightsWrite Weights) :
    (percentageGrammar env c next).prog =
      percentage env.strtod c fun d => (next d).prog := by
  simp only [percentageGrammar, percentage, Grammar.prog, prog_letter, prog_double]
  rfl

theorem pDistanceGrammar_reader : (pDistanceGrammar env).reader = pDistanceReader := by
  have hdsts : ∀ (src : (kinds env).V .pid) (reverse : Bool) (n : (kinds env).V .unsigned),
      (pDistanceDstsGrammar env src reverse n).prog = pDistanceDsts src reverse n :=
    pDistanceDstsGrammar_prog
  simp only [RecordGrammar.reader, pDistanceGrammar, Grammar.prog, prog_pid, prog_flag,
    prog_unsigned, hdsts]
  rfl

theorem weightsGrammar_reader : (weightsGrammar env).reader = weightsReader env.strtod := by
  have hdsts : ∀ (src : (kinds env).V .pid) (n : (kinds env).V .unsigned),
      (weightsDstsGrammar env src n).prog = weightsDsts env.strtod src n :=
    weightsDstsGrammar_prog
  simp only [RecordGrammar.reader, weightsGrammar, Grammar.prog, prog_pid, prog_unsigned,
    percentageGrammar_prog, hdsts]
  rfl

theorem pidMapGrammar_reader : (pidMapGrammar env).reader = pidMapReader env.net env.stack := by
  have hrecord : (pidMapGrammar env).reader.record = (pidMapReader env.net env.stack).record := by
    funext s t
    obtain ⟨out, state, prefixCount, curRecord, constructed⟩ := s
    rcases state with _ | _ | state
    · exact prog_pid _
    · exact prog_unsigned _
    · exact prog_ipPrefix _
  rw [RecordGrammar.reader] at hrecord ⊢
  rw [pidMapReader, TokenReader.mk.injEq]
  exact ⟨rfl, rfl, rfl, hrecord⟩

/-- White space that is consumed early makes no difference to the words. -/
theorem settle_tokenConsume (input : List Char) (s : List (List Char)) :
    settle tokenConsume input s = settle tokenReader.consume input s := by
  have hclose : ∀ input s,
      (tokenConsume true (input.dropWhile isSpace) s).result =
        (tokenReader.consume true input s).result := by
    intro input s
    rw [tokenConsume_congr (List.dropWhile_idempotent (p := isSpace) input), tokenConsume]
    cases tokenReader.consume true input s <;> rfl
  have hfailed : ∀ s, (tokenConsume true [] s).resultFailed =
      (tokenReader.consume true [] s).resultFailed := by
    intro s
    rw [tokenConsume]
    cases tokenReader.consume true [] s <;> rfl
  rw [settle, settle, tokenConsume]
  cases tokenReader.consume false input s with
  | ok rest s' => exact hclose rest s'
  | error s' => exact hfailed s'
  | undefined => rfl

/-- The reader of a single token takes the first one. -/
theorem settle_singleTokenConsume (input : List Char) :
    settle singleTokenConsume input [] =
      match readToken isSpace true input with
      | some (token, _) => some (token, false)
      | none => some ([], true) := by
  have hclose : ∀ finished input, singleTokenConsume finished input [] =
      match readToken isSpace finished input with
      | some (token, rest) => .ok rest token
      | none => if finished then .error [] else .ok (input.dropWhile isSpace) [] :=
    fun _ _ => rfl
  rw [settle, hclose]
  cases hread : readToken isSpace false input with
  | some p =>
    have hmore := readToken_append hread true []
    rw [List.append_nil, List.append_nil] at hmore
    rw [hmore]
    show (singleTokenConsume true p.2 p.1).result = _
    rw [singleTokenConsume_found (readToken_ne_nil hread)]
    rfl
  | none =>
    show (singleTokenConsume true (input.dropWhile isSpace) []).result = _
    rw [hclose, readToken_congr (List.dropWhile_idempotent (p := isSpace) input)]
    cases readToken isSpace true input <;> rfl

theorem singleTokenGrammar_consume (input : List Char) :
    ((singleTokenGrammar env).reader.consume true input []).result =
      match readToken isSpace true input with
      | some (token, _) => some (token, false)
      | none => some ([], true) := by
  have hsep : (singleTokenGrammar env).reader.sep = isSpace := rfl
  rw [TokenReader.consume_eq, TokenReader.body, TokenProg.run, hsep]
  cases hread : readToken isSpace true input with
  | none => rfl
  | some p =>
    obtain ⟨token, rest⟩ := p
    show ((singleTokenGrammar env).reader.consume true rest token).result = _
    obtain ⟨c, more, rfl⟩ := List.exists_cons_of_ne_nil (readToken_ne_nil hread)
    rw [TokenReader.consume_eq, TokenReader.body, TokenProg.run, hsep]
    cases readToken isSpace true rest <;> rfl

end Readers

/-! ## Formats of responses -/

/-- A reader with the grammar of its response. -/
structure Format (env : Environment) where
  S : Type
  W : Type
  init : S
  consume : Bool → List Char → S → Consumed Char S
  grammar : RecordGrammar (kinds env) W S

namespace Format

variable {env : Environment}

/-- The reader. -/
def reader (F : Format env) : Reader :=
  ⟨F.S, F.init, F.consume⟩

/-- The tokens of a response. -/
def words (chunks : List (List Char)) : List (List Char) :=
  tokens isSpace chunks.flatten

/-- The reader fails cleanly on a response: it ends, with an error or with the records that the
whole response consists of; it takes a response that consists of records; and the first token that
is not converted completely is an error. -/
structure FailsCleanly (F : Format env) (chunks : List (List Char)) : Prop where
  ends : ∃ s failed, F.reader.read chunks = some (s, failed) ∧
    (failed = false → F.grammar.Records (words chunks) F.init s)
  accepts : ∀ s, F.grammar.Records (words chunks) F.init s →
    F.reader.read chunks = some (s, false)
  refuses : ∀ k token, F.grammar.Comes (words chunks) F.init k token →
    (¬∃ v, (kinds env).Complete k token v) → convert env k token = .throw

/-- Reading a response is a call of the grammar's reader at its end. -/
structure Reads (F : Format env) : Prop where
  sep : F.grammar.sep = isSpace
  read : ∀ chunks, F.reader.read chunks =
    (F.grammar.reader.consume true chunks.flatten F.init).result

end Format

/-- The formats. -/
def formats (env : Environment) (weights : Weights) : List (Format env) :=
  [⟨_, _, [], addressPIDReader.consume, addressPIDGrammar env⟩,
    ⟨_, _, ∅, pDistanceReader.consume, pDistanceGrammar env⟩,
    ⟨_, _, [], netNodeReader.consume, netNodeGrammar env⟩,
    ⟨_, _, [], namedNetLinkReader.consume, linkGrammar env⟩,
    ⟨_, _, [], namedPIDReader.consume, addressPIDGrammar env⟩,
    ⟨_, _, {}, (pidMapReader env.net env.stack).consume, pidMapGrammar env⟩,
    ⟨_, _, [], namedPIDLinkReader.consume, linkGrammar env⟩,
    ⟨_, _, [], tokenConsume, tokenGrammar env⟩,
    ⟨_, _, [], singleTokenConsume, singleTokenGrammar env⟩,
    ⟨_, _, [], pidReader.consume, pidGrammar env⟩,
    ⟨_, _, weights, (weightsReader env.strtod).consume, weightsGrammar env⟩]

/-- They are the formats of all readers. -/
theorem map_reader_formats (env : Environment) (weights : Weights) :
    (formats env weights).map Format.reader =
      readers env.net env.stack env.strtod weights :=
  rfl

section Reads

variable {env : Environment}

theorem Format.reads_of_reader {S W : Type} {R : TokenReader Char W S} {init : S}
    {G : RecordGrammar (kinds env) W S} (ha : R.Absorbing) (hG : G.reader = R)
    (hsep : R.sep = isSpace) : Format.Reads ⟨S, W, init, R.consume, G⟩ where
  sep := by rw [← hsep, ← hG]; rfl
  read chunks := by
    show ResponseReader.read R.consume { state := init } chunks = _
    rw [ResponseReader.read_eq_settle ha.continues.resumable (TokenReader.consume_nil _),
      ha.settle_eq, hG]

theorem reads_formats (env : Environment) (weights : Weights) :
    ∀ F ∈ formats env weights, F.Reads := by
  simp only [formats, List.forall_mem_cons]
  refine ⟨?_, ?_, ?_, ?_, ?_, ?_, ?_, ?_, ?_, ?_, ?_, nofun⟩
  · exact Format.reads_of_reader (absorbing_of_empty _) addressPIDGrammar_reader rfl
  · exact Format.reads_of_reader pDistanceReader_absorbing pDistanceGrammar_reader rfl
  · exact Format.reads_of_reader (absorbing_of_empty _) rfl rfl
  · exact Format.reads_of_reader (absorbing_of_empty _) rfl rfl
  · exact Format.reads_of_reader (absorbing_of_empty _) addressPIDGrammar_reader rfl
  · exact Format.reads_of_reader (absorbing_of_empty _) pidMapGrammar_reader rfl
  · exact Format.reads_of_reader (absorbing_of_empty _) rfl rfl
  · refine ⟨rfl, fun chunks => ?_⟩
    show ResponseReader.read tokenConsume { state := [] } chunks = _
    rw [ResponseReader.read_eq_settle tokenConsume_continues.resumable (tokenConsume_nil _),
      settle_tokenConsume, (absorbing_of_empty tokenReader).settle_eq]
    rfl
  · refine ⟨rfl, fun chunks => ?_⟩
    show ResponseReader.read singleTokenConsume { state := [] } chunks = _
    rw [ResponseReader.read_eq_settle singleTokenConsume_resumable rfl,
      settle_singleTokenConsume, singleTokenGrammar_consume]
  · exact Format.reads_of_reader (absorbing_of_empty _) pidGrammar_reader rfl
  · exact Format.reads_of_reader (weightsReader_absorbing _) weightsGrammar_reader rfl

end Reads

/-! ## When the readers fail cleanly -/

/-- What a token must be where a kind stands: PIDs, numbers and prefixes that are converted
completely, where the prefix is not in the record yet; the letter of a percentage; a number that is
in range, or no number at all; and nothing behind a single token. -/
def Kind.Fits (env : Environment) : Kind → List Char → Prop
  | .word, _ => True
  | .indicator, t => t = "external".toList ∨ t = "internal".toList
  | .flag, _ => True
  | .letter c, t => t = [c]
  | .pid, t => ∃ p, castPID t = some p ∧ numeral (t.takeWhile (· != '.')) = some (p.num : Int)
  | .unsigned, t => ∃ n, castUnsigned t = some n ∧ numeral t = some (n : Int)
  | .ipPrefix seen constructed, t => ∃ p, castPrefix env.net t = some p ∧
      '\x00' ∉ t ∧ WholeLength t p ∧ readPrefix env.stack constructed p ∉ seen
  | .double, t => toDouble env.strtod t = none ∨ '\x00' ∉ t ∧ env.erange t = false
  | .nothing, _ => False

section Fits

variable {env : Environment} {token : List Char}

theorem ofStream_eq_value {V : Type} {o : Option V} {v : V} :
    Cast.ofStream o = .value v ↔ o = some v := by
  cases o <;> simp [Cast.ofStream]

theorem ofStream_ne_throw {V : Type} (o : Option V) : Cast.ofStream o ≠ .throw := by
  cases o <;> nofun

theorem fits_iff_handled (k : Kind) : k.Fits env token ↔ (kinds env).Handled k token := by
  have hstream : ∀ {V : Type} (o : Option V) (P : V → Prop),
      (∃ v, o = some v ∧ P v) ↔
        (∃ v, Cast.ofStream o = .value v ∧ P v) ∨ Cast.ofStream o = .throw := by
    intro V o P
    simp only [ofStream_eq_value, ofStream_ne_throw, or_false]
  cases k with
  | word => exact ⟨fun _ => .inl ⟨token, rfl, trivial⟩, fun _ => trivial⟩
  | indicator =>
    refine ⟨fun h => .inl ⟨_, rfl, h⟩, fun h => ?_⟩
    rcases h with ⟨v, -, hv⟩ | h
    · exact hv
    · cases h
  | flag =>
    refine ⟨fun _ => ?_, fun _ => trivial⟩
    by_cases hinc : token = "inc-reverse".toList
    · exact .inl ⟨true, if_pos hinc, trivial⟩
    by_cases hno : token = "no-reverse".toList
    · exact .inl ⟨false, (if_neg hinc).trans (if_pos hno), trivial⟩
    · exact .inr ((if_neg hinc).trans (if_neg hno))
  | letter c =>
    refine ⟨fun h => .inl ⟨(), if_pos h, trivial⟩, fun h => ?_⟩
    by_contra hne
    have hstop : convert env (.letter c) token = .stop := if_neg hne
    rcases h with ⟨v, hv, -⟩ | h
    · cases hstop.symm.trans hv
    · cases hstop.symm.trans h
  | pid => exact hstream (castPID token) _
  | unsigned => exact hstream (castUnsigned token) _
  | ipPrefix seen constructed => exact hstream (castPrefix env.net token) _
  | double =>
    have hcast : convert env .double token =
      match toDouble env.strtod token with
      | some d => .value d
      | none => .throw := rfl
    constructor
    · intro h
      cases hd : toDouble env.strtod token with
      | none =>
        rw [hd] at hcast
        exact .inr hcast
      | some d =>
        rw [hd] at hcast
        exact .inl ⟨d, hcast, h.resolve_left (by simp [hd])⟩
    · rintro (⟨d, -, hd⟩ | hthrow)
      · exact .inr hd
      · left
        cases hd : toDouble env.strtod token with
        | none => rfl
        | some d =>
          rw [hd] at hcast
          cases hcast.symm.trans hthrow
  | nothing =>
    refine ⟨False.elim, fun h => ?_⟩
    rcases h with ⟨v, -, hv⟩ | h
    · exact hv
    · cases h

/-- What the grammar's reader makes of a response is what the reader makes of it. -/
theorem Format.Reads.failsCleanly_iff {F : Format env} (hF : F.Reads)
    (chunks : List (List Char)) : F.FailsCleanly chunks ↔
      ∀ k token, F.grammar.Comes (Format.words chunks) F.init k token → k.Fits env token := by
  have hwords : Format.words chunks = tokens F.grammar.sep chunks.flatten := by rw [hF.sep, Format.words]
  constructor
  · intro h k token hcomes
    refine (fits_iff_handled k).2 ?_
    by_cases hcomplete : ∃ v, (kinds env).Complete k token v
    · exact .inl hcomplete
    · exact .inr (h.refuses k token hcomes hcomplete)
  · intro h
    have hhandled : ∀ k token, F.grammar.Comes (Format.words chunks) F.init k token →
        (kinds env).Handled k token :=
      fun k token hcomes => (fits_iff_handled k).1 (h k token hcomes)
    refine ⟨?_, fun s hs => ?_, fun k token hcomes hno => (hhandled k token hcomes).resolve_left hno⟩
    · rw [hF.read]
      rw [hwords] at hhandled ⊢
      rcases RecordGrammar.consume_cases hhandled with ⟨rest, s, hok, hrecords⟩ | ⟨s, herror⟩
      · exact ⟨s, false, by rw [hok]; rfl, fun _ => hrecords⟩
      · exact ⟨s, true, by rw [herror]; rfl, nofun⟩
    · rw [hwords] at hs
      obtain ⟨rest, hok⟩ := RecordGrammar.consume_of_records hs
      rw [hF.read, hok]
      rfl

end Fits

/-- A reader fails cleanly on a response if and only if each token that it comes to is one for its
place. -/
theorem responses_read_cleanly_iff (env : Environment) (weights : Weights) :
    ∀ F ∈ formats env weights, ∀ chunks : List (List Char), F.FailsCleanly chunks ↔
      ∀ k token, F.grammar.Comes (Format.words chunks) F.init k token → k.Fits env token :=
  fun F hF chunks => (reads_formats env weights F hF).failsCleanly_iff chunks

/-- An environment without addresses, for texts of PIDs and numbers. -/
def plainEnvironment : Environment :=
  ⟨⟨fun _ => none, fun _ _ => []⟩, fun _ => 0, fun t => (.nan, t), fun _ => false⟩

/-- A source with costs in both directions and a record that breaks off at its flag, in two chunks. -/
def brokenCosts : List (List Char) :=
  ["1.i.isp inc-reverse 1 2.i.isp 5 7\r\n2.i.".toList, "isp reverse 1".toList]

/-- The reader of the pDistances reports the flag of the second record. -/
theorem responses_read_cleanly_costs :
    (⟨_, _, ∅, pDistanceReader.consume, pDistanceGrammar plainEnvironment⟩ :
      Format plainEnvironment).FailsCleanly brokenCosts := by
  have hwords : Format.words brokenCosts = ["1.i.isp".toList, "inc-reverse".toList, "1".toList,
      "2.i.isp".toList, "5".toList, "7".toList, "2.i.isp".toList, "reverse".toList, "1".toList] := by
    decide
  refine (responses_read_cleanly_iff plainEnvironment ⟨∅, ∅, ∅, ∅⟩ _
    (by simp [formats]) _).2 fun k token hcomes => ?_
  rw [hwords] at hcomes
  have hone : convert plainEnvironment .pid "1.i.isp".toList = .value ⟨"isp", 1, false⟩ := by rfl
  have htwo : convert plainEnvironment .pid "2.i.isp".toList = .value ⟨"isp", 2, false⟩ := by rfl
  have hinc : convert plainEnvironment .flag "inc-reverse".toList = .value true := by rfl
  have hcount : convert plainEnvironment .unsigned "1".toList = .value (1 : Nat) := by rfl
  have hcost : convert plainEnvironment .unsigned "5".toList = .value (5 : Nat) := by rfl
  have hback : convert plainEnvironment .unsigned "7".toList = .value (7 : Nat) := by rfl
  cases hcomes with
  | here hfirst =>
    obtain ⟨rfl, rfl⟩ | h := hfirst.behind hone
    · exact ⟨⟨"isp", 1, false⟩, by decide, by decide⟩
    obtain ⟨rfl, rfl⟩ | h := h.behind hinc
    · trivial
    obtain ⟨rfl, rfl⟩ | h := h.behind hcount
    · exact ⟨1, by decide, by decide⟩
    obtain ⟨rfl, rfl⟩ | h := h.behind htwo
    · exact ⟨⟨"isp", 2, false⟩, by decide, by decide⟩
    obtain ⟨rfl, rfl⟩ | h := h.behind hcost
    · exact ⟨5, by decide, by decide⟩
    cases h with
    | write h =>
      obtain ⟨rfl, rfl⟩ | h := h.behind hback
      · exact ⟨7, by decide, by decide⟩
      cases h with
      | write h => cases h
  | record hfirst hcomes =>
    have h := ((((hfirst.behind hone).behind hinc).behind hcount).behind htwo).behind hcost
    cases h with
    | write h =>
      cases h.behind hback with
      | write h =>
        cases h with
        | done =>
          cases hcomes with
          | here hsecond =>
            obtain ⟨rfl, rfl⟩ | h := hsecond.behind htwo
            · exact ⟨⟨"isp", 2, false⟩, by decide, by decide⟩
            cases h with
            | here => trivial
            | token complete _ => cases complete.1
          | record hsecond _ =>
            cases hsecond.behind htwo with
            | token complete _ => cases complete.1

/-- Text that is no PID is undefined behaviour, and a cost with letters behind it is cut. -/
theorem responses_not_read_cleanly :
    (¬∀ F ∈ formats plainEnvironment ⟨∅, ∅, ∅, ∅⟩, F.FailsCleanly ["x".toList]) ∧
      (⟨_, ∅, pDistanceReader.consume⟩ : Reader).read
          ["1.i.isp no-reverse 1 2.i.isp 5x".toList] =
        some (PIDMatrixGeneric.set ∅ ⟨"isp", 1, false⟩ ⟨"isp", 2, false⟩ 5, false) := by
  constructor
  · intro h
    obtain ⟨s, failed, hread, -⟩ := (h
      ⟨_, _, [], pidReader.consume, pidGrammar plainEnvironment⟩ (by simp [formats])).ends
    cases hread
  · rfl

end Alto.Response
