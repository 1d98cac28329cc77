import Mathlib
import Alto.Lib.StdMap
import Alto.Lib.TokenReader
import Alto.Common.Double
import Alto.Common.IStream

/-!
# The readers of responses

`ResponseReader` (`common/cpp/src/lib/protocol/parsing.cpp`) and its subclasses
(`common/cpp/src/include/p4p/protocol/detail/parsing.h`, `protocol-portal/detail/parsing.h` and
`protocol-aoe/detail/parsing.h`). The body of a `consume` loop is a program that reads tokens: a
call of `read_token` is `token`, with the argument `require`; a `break` is `stop`; `pos = cur_pos`
at the end of the loop body is `done`.
-/

namespace Alto.Response

open Lib

/-! ## The base class -/

/-- `ResponseReader`, with the members of the subclass. -/
structure ResponseReader (S : Type) where
  hasError : Bool := false
  buffer : List Char := []
  state : S

namespace ResponseReader

variable {S : Type} (consume : Bool → List Char → S → Consumed Char S)

/-- `ResponseReader::process`. It is `none` where the behaviour is undefined. -/
def process (r : ResponseReader S) (buf : List Char) : Option (ResponseReader S) :=
  if r.hasError then some r
  else
    match consume false (r.buffer ++ buf) r.state with
    | .ok rest state => some { hasError := false, buffer := rest, state }
    | .error state => some { hasError := true, buffer := [], state }
    | .undefined => none

/-- `ResponseReader::finish`, and the test of `has_error` after it: the members of the subclass, and
whether there is a protocol error. -/
def finish (r : ResponseReader S) : Option (S × Bool) :=
  match consume true r.buffer r.state with
  | .ok _ state => some (state, r.hasError)
  | .error state => some (state, true)
  | .undefined => none

/-- `process` for each chunk, then `finish`. -/
def read (r : ResponseReader S) : List (List Char) → Option (S × Bool)
  | [] => r.finish consume
  | chunk :: chunks =>
    match r.process consume chunk with
    | none => none
    | some r => read r chunks

end ResponseReader

/-! ## Typed tokens -/

section Tokens

variable {W S : Type}

/-- `read_token` for a `PID`, once the token is there. -/
def pidOf (token : List Char) (next : PID → TokenProg Char W S) : TokenProg Char W S :=
  match castPID token with
  | none => .crash
  | some pid => next pid

/-- `read_token` for an `unsigned int`. -/
def unsignedOf (token : List Char) (next : Nat → TokenProg Char W S) : TokenProg Char W S :=
  match castUnsigned token with
  | none => .crash
  | some n => next n

/-- `read_token` for an `IPPrefix`. -/
def prefixOf (net : AddressText) (token : List Char) (next : IPPrefix → TokenProg Char W S) :
    TokenProg Char W S :=
  match castPrefix net token with
  | none => .crash
  | some p => next p

/-- `strcasecmp(s, t) == 0`, for a lower-case text. -/
def caseEqual (s : List Char) (t : String) : Bool :=
  (cString s).map Char.toLower == t.toList

/-- `to_double` (`common/cpp/src/lib/protocol/dataconv.cpp`), with `strtod` of the C library: the
value of a C string, and what follows the number. -/
def toDouble (strtod : List Char → Double × List Char) (s : List Char) : Option Double :=
  if s.isEmpty then none
  else if caseEqual s "nan" then some .nan
  else if caseEqual s "-inf" then some (.inf true)
  else if caseEqual s "inf" || caseEqual s "+inf" then some (.inf false)
  else
    let (d, rest) := strtod (cString s)
    if rest.isEmpty then some d else none

/-- `read_token` for a `double`. -/
def doubleOf (strtod : List Char → Double × List Char) (token : List Char)
    (next : Double → TokenProg Char W S) : TokenProg Char W S :=
  match toDouble strtod token with
  | none => .throw
  | some d => next d

end Tokens

/-! ## Readers of lists -/

/-- A reader that appends its records to a list. -/
def listReader {Out : Type} (record : List Char → TokenProg Char Empty (List Out)) :
    TokenReader Char Empty (List Out) where
  sep := isSpace
  apply w := w.elim
  require _ := false
  record _ := record

/-- `*itr_++ = out`, at the end of a record. -/
def emit {Out : Type} (out : Out) : TokenProg Char Empty (List Out) :=
  .done (· ++ [out])

/-- `ResponseAddressPIDReader`. -/
def addressPIDReader : TokenReader Char Empty (List (List Char × PID)) :=
  listReader fun addr =>
    .token true fun token => pidOf token fun pid =>
      emit (addr, pid)

/-- `ResponseNetNodeReader`, with the name of a node and whether it is external. -/
def netNodeReader : TokenReader Char Empty (List (List Char × Bool)) :=
  listReader fun name =>
    .token true fun ext =>
      emit (name, ext == "external".toList)

/-- `ResponseNamedNetLinkReader`, with the name, source and destination of a link. -/
def namedNetLinkReader : TokenReader Char Empty (List (List Char × List Char × List Char)) :=
  listReader fun name =>
    .token true fun src =>
      .token true fun dst =>
        emit (name, src, dst)

/-- `ResponseNamedPIDReader`. -/
def namedPIDReader : TokenReader Char Empty (List (List Char × PID)) :=
  listReader fun name =>
    .token true fun token => pidOf token fun pid =>
      emit (name, pid)

/-- `ResponseNamedPIDLinkReader`. -/
def namedPIDLinkReader : TokenReader Char Empty (List (List Char × List Char × List Char)) :=
  listReader fun name =>
    .token true fun src =>
      .token true fun dst =>
        emit (name, src, dst)

/-- `ResponsePIDReader`. -/
def pidReader : TokenReader Char Empty (List PID) :=
  listReader fun token => pidOf token fun pid =>
    emit pid

/-- The loop of `ResponseTokenReader`. -/
def tokenReader : TokenReader Char Empty (List (List Char)) :=
  listReader emit

/-- `ResponseTokenReader::consume`. The position that it returns is the one that `read_token` has
moved, so leading white space is consumed even if there is no token. -/
def tokenConsume (finished : Bool) (input : List Char) (s : List (List Char)) :
    Consumed Char (List (List Char)) :=
  match tokenReader.consume finished input s with
  | .ok rest s => .ok (rest.dropWhile isSpace) s
  | .error s => .error s
  | .undefined => .undefined

/-- `ResponseSingleTokenReader::consume`. -/
def singleTokenConsume (finished : Bool) (input token : List Char) :
    Consumed Char (List Char) :=
  if token ≠ [] then .ok [] token
  else
    match readToken isSpace finished input with
    | some (token, rest) => .ok rest token
    | none => if finished then .error token else .ok (input.dropWhile isSpace) token

/-! ## Readers of matrices -/

/-- `PIDMatrixGeneric` (`common/cpp/src/include/p4p/detail/pid_matrix_generic.h`). -/
abbrev PIDMatrixGeneric (T : Type) := StdMap PID (StdMap PID T)

/-- `PIDMatrixGeneric::set`. -/
def PIDMatrixGeneric.set {T : Type} (m : PIDMatrixGeneric T) (i j : PID) (value : T) :
    PIDMatrixGeneric T :=
  m.insert i ((m[i]?.getD ∅).insert j value)

/-- The loop over the destinations in `ResponsePDistanceReader::consume`. -/
def pDistanceDsts (src : PID) (reverse : Bool) :
    Nat → TokenProg Char (PID × PID × Nat) (PIDMatrixGeneric Nat)
  | 0 => .done id
  | n + 1 =>
    .token true fun token => pidOf token fun dst =>
      .token true fun token => unsignedOf token fun cost =>
        .write (src, dst, cost)
          (if reverse then
            .token true fun token => unsignedOf token fun cost =>
              .write (dst, src, cost) (pDistanceDsts src reverse n)
          else pDistanceDsts src reverse n)

/-- `ResponsePDistanceReader`. -/
def pDistanceReader : TokenReader Char (PID × PID × Nat) (PIDMatrixGeneric Nat) where
  sep := isSpace
  apply w m := PIDMatrixGeneric.set m w.1 w.2.1 w.2.2
  require _ := false
  record _ token := pidOf token fun src =>
    .token true fun reverse =>
      if reverse = "inc-reverse".toList then
        .token true fun token => unsignedOf token fun numDsts => pDistanceDsts src true numDsts
      else if reverse = "no-reverse".toList then
        .token true fun token => unsignedOf token fun numDsts => pDistanceDsts src false numDsts
      else .throw

/-- `WeightsMap` and `PIDClassPercentages` (`protocol-aoe/pid_class_pcts.h`). -/
structure Weights where
  weights : PIDMatrixGeneric Double
  intrapid : StdMap PID Double
  intradomain : StdMap PID Double
  interdomain : StdMap PID Double

/-- `PIDClassPercentages::add` and `WeightsMap::set`. -/
inductive WeightsWrite where
  | add (src : PID) (intrapid intradomain interdomain : Double)
  | set (src dst : PID) (weight : Double)

/-- The effect of a write. -/
def Weights.apply : WeightsWrite → Weights → Weights
  | .add src intrapid intradomain interdomain, s =>
    { s with
      intrapid := s.intrapid.insert src intrapid
      intradomain := s.intradomain.insert src intradomain
      interdomain := s.interdomain.insert src interdomain }
  | .set src dst weight, s => { s with weights := PIDMatrixGeneric.set s.weights src dst weight }

section Weights

variable (strtod : List Char → Double × List Char)

/-- The loop over the destinations in `ResponseWeightsReader::consume`. -/
def weightsDsts (src : PID) : Nat → TokenProg Char WeightsWrite Weights
  | 0 => .done id
  | n + 1 =>
    .token true fun token => pidOf token fun dst =>
      .token true fun token => doubleOf strtod token fun weight =>
        .write (.set src dst weight) (weightsDsts src n)

/-- A percentage with its letter in front. -/
def percentage (letter : Char) (next : Double → TokenProg Char WeightsWrite Weights) :
    TokenProg Char WeightsWrite Weights :=
  .token true fun token =>
    if token = [letter] then .token true fun token => doubleOf strtod token next else .stop

/-- `ResponseWeightsReader`. -/
def weightsReader : TokenReader Char WeightsWrite Weights where
  sep := isSpace
  apply := Weights.apply
  require _ := false
  record _ token := pidOf token fun src =>
    percentage strtod 'p' fun intrapid =>
      percentage strtod 'i' fun intradomain =>
        percentage strtod 'e' fun interdomain =>
          .write (.add src intrapid intradomain interdomain)
            (.token true fun token => unsignedOf token fun dstCount =>
              weightsDsts strtod src dstCount)

end Weights

/-! ## The PID map reader -/

/-- An `IPPrefix` that has been read from a text: the constructor copies an IPv4 address into the
first four bytes of `address_` and leaves the other twelve as they are, and `compare_dst` looks at
all of them. -/
abbrev ReadPrefix := IPPrefix × Nat

/-- A prefix with the bytes behind it, where `stack` holds what the memory of the `n`-th constructed
prefix contains. -/
def readPrefix (stack : Nat → Nat) (n : Nat) (p : IPPrefix) : ReadPrefix :=
  (p, if p.family = .inet then stack n else 0)

/-- `PIDPrefixes`. -/
structure PIDPrefixes where
  pid : PID
  prefixes : Finset ReadPrefix

/-- The members of `ResponsePIDMapReader` with its output, and the number of prefixes that have been
constructed. -/
structure PIDMap where
  out : List PIDPrefixes := []
  pidState : Nat := 0
  prefixCount : Nat := 0
  curRecord : PIDPrefixes := ⟨default, ∅⟩
  constructed : Nat := 0

/-- The test of the loop of state 2, and state 3. -/
def PIDMap.endRecord (s : PIDMap) : PIDMap :=
  if s.curRecord.prefixes.card < s.prefixCount then s
  else { s with pidState := 0, out := s.out ++ [s.curRecord] }

/-- State 0: `cur_record_ = PIDPrefixes(pid)`. -/
def PIDMap.setPID (pid : PID) (s : PIDMap) : PIDMap :=
  { s with curRecord := ⟨pid, ∅⟩, pidState := 1 }

/-- State 1. -/
def PIDMap.setCount (n : Nat) (s : PIDMap) : PIDMap :=
  PIDMap.endRecord { s with prefixCount := n, pidState := 2 }

/-- State 2: `cur_record_.add_prefix(prefix)`. -/
def PIDMap.addPrefix (stack : Nat → Nat) (p : IPPrefix) (s : PIDMap) : PIDMap :=
  PIDMap.endRecord { s with
    curRecord := { s.curRecord with
      prefixes := insert (readPrefix stack s.constructed p) s.curRecord.prefixes }
    constructed := s.constructed + 1 }

/-- `ResponsePIDMapReader`. The position is advanced after every token, so a round of the loop here is
one token; the cases of the `switch` fall through to the next state. -/
def pidMapReader (net : AddressText) (stack : Nat → Nat) : TokenReader Char Empty PIDMap where
  sep := isSpace
  apply w := w.elim
  require s := s.pidState != 0
  record s token :=
    match s.pidState with
    | 0 => pidOf token fun pid => .done (PIDMap.setPID pid)
    | 1 => unsignedOf token fun n => .done (PIDMap.setCount n)
    | _ => prefixOf net token fun p => .done (PIDMap.addPrefix stack p)

/-! ## All readers -/

/-- A subclass of `ResponseReader`: its members, their initial values and its `consume`. -/
structure Reader where
  S : Type
  init : S
  consume : Bool → List Char → S → Consumed Char S

/-- The members of the subclass after the chunks have been read, and whether there is a protocol
error. -/
def Reader.read (R : Reader) (chunks : List (List Char)) : Option (R.S × Bool) :=
  ResponseReader.read R.consume { state := R.init } chunks

/-- The readers, with the C library's `getaddrinfo` and `strtod`, the contents of uninitialised
memory, and the weights that the caller of `ResponseWeightsReader` passes in. -/
def readers (net : AddressText) (stack : Nat → Nat) (strtod : List Char → Double × List Char)
    (weights : Weights) : List Reader :=
  [⟨_, [], addressPIDReader.consume⟩,
    ⟨_, ∅, pDistanceReader.consume⟩,
    ⟨_, [], netNodeReader.consume⟩,
    ⟨_, [], namedNetLinkReader.consume⟩,
    ⟨_, [], namedPIDReader.consume⟩,
    ⟨_, {}, (pidMapReader net stack).consume⟩,
    ⟨_, [], namedPIDLinkReader.consume⟩,
    ⟨_, [], tokenConsume⟩,
    ⟨_, [], singleTokenConsume⟩,
    ⟨_, [], pidReader.consume⟩,
    ⟨_, weights, (weightsReader strtod).consume⟩]

end Alto.Response
