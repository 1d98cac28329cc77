import Alto.Lib.TokenGrammar
import Alto.Verify.PIDMapWrite

/-!
# Repeated prefixes in a response

Two readings of one response need not find the same bytes in the memory that they leave uninitialised.
Only `ResponsePIDMapReader` looks at such bytes: it counts the different prefixes of a record, and an
IPv4 prefix that is repeated is a different one if the bytes behind it differ. So its readings agree
exactly if no record that comes to its end repeats an IPv4 prefix (`NoneRepeated`).
-/

namespace Alto.Response

open Lib

variable {net : AddressText} {stack stack' : Nat → Nat} {text : List Char}

/-! ## Readings that agree -/

/-- A reader in uninitialised memory, what its caller gets of its members, and the responses, as their
tokens, of which every reading gives the same. -/
structure MemoryReader where
  S : Type
  Out : Type
  init : S
  consume : (Nat → Nat) → Bool → List Char → S → Consumed Char S
  out : S → Out
  Steady : List (List Char) → Prop

namespace MemoryReader

variable (R : MemoryReader)

/-- The reader in this memory. -/
def reader (stack : Nat → Nat) : Reader := ⟨R.S, R.init, R.consume stack⟩

/-- What the caller gets, and whether there is a protocol error. -/
def read (stack : Nat → Nat) (chunks : List (List Char)) : Option (R.Out × Bool) :=
  ((R.reader stack).read chunks).map fun s => (R.out s.1, s.2)

/-- However the response is cut, and whatever the memory holds, a reading gives the same as one call for
the whole response. -/
def Independent (text : List Char) : Prop :=
  ∀ (stack stack' : Nat → Nat) (chunks : List (List Char)), chunks.flatten = text →
    R.read stack chunks = R.read stack' [text]

end MemoryReader

/-- The records of a PID map, without the bytes behind the prefixes. -/
def PIDMap.records (s : PIDMap) : List (PID × Multiset IPPrefix) :=
  s.out.map fun r => (r.pid, r.prefixes.val.map Prod.fst)

/-- What the next token of a PID map is: a PID; a number of prefixes; or one of so many prefixes, where
these have been read. -/
inductive Place where
  | pid
  | count
  | prefixes (count : Nat) (read : List IPPrefix)

/-- The place behind these prefixes. -/
def Place.next (count : Nat) (read : List IPPrefix) : Place :=
  if read.length < count then .prefixes count read else .pid

/-- One more prefix. An IPv4 prefix counts each time, an IPv6 prefix once. -/
def keep (read : List IPPrefix) (p : IPPrefix) : List IPPrefix :=
  if p.family = .inet6 ∧ p ∈ read then read else read ++ [p]

/-- No record that comes to its end repeats an IPv4 prefix, from such a place on. -/
def NoneRepeated (net : AddressText) : Place → List (List Char) → Prop
  | _, [] => True
  | .pid, token :: tokens => ∀ pid ∈ castPID token, NoneRepeated net .count tokens
  | .count, token :: tokens => ∀ n ∈ castUnsigned token, NoneRepeated net (.next n []) tokens
  | .prefixes count read, token :: tokens => ∀ p ∈ castPrefix net token,
    (count ≤ (keep read p).length → (keep read p).Nodup) ∧
      NoneRepeated net (.next count (keep read p)) tokens

instance decidableNoneRepeated (net : AddressText) :
    ∀ place tokens, Decidable (NoneRepeated net place tokens)
  | .pid, [] => .isTrue trivial
  | .count, [] => .isTrue trivial
  | .prefixes _ _, [] => .isTrue trivial
  | .pid, token :: tokens =>
    haveI := decidableNoneRepeated net .count tokens
    inferInstanceAs (Decidable (∀ pid ∈ castPID token, NoneRepeated net .count tokens))
  | .count, token :: tokens =>
    haveI := fun n => decidableNoneRepeated net (.next n []) tokens
    inferInstanceAs (Decidable (∀ n ∈ castUnsigned token, NoneRepeated net (.next n []) tokens))
  | .prefixes count read, token :: tokens =>
    haveI := fun p => decidableNoneRepeated net (.next count (keep read p)) tokens
    inferInstanceAs (Decidable (∀ p ∈ castPrefix net token,
      (count ≤ (keep read p).length → (keep read p).Nodup) ∧
        NoneRepeated net (.next count (keep read p)) tokens))

/-- `ResponsePIDMapReader` in uninitialised memory. -/
def pidMapInMemory (net : AddressText) : MemoryReader :=
  ⟨_, _, {}, fun stack => (pidMapReader net stack).consume, PIDMap.records, NoneRepeated net .pid⟩

/-- The readers in uninitialised memory. -/
def memoryReaders (net : AddressText) (strtod : List Char → Double × List Char) (weights : Weights) :
    List MemoryReader :=
  [⟨_, _, [], fun _ => addressPIDReader.consume, id, fun _ => True⟩,
    ⟨_, _, ∅, fun _ => pDistanceReader.consume, id, fun _ => True⟩,
    ⟨_, _, [], fun _ => netNodeReader.consume, id, fun _ => True⟩,
    ⟨_, _, [], fun _ => namedNetLinkReader.consume, id, fun _ => True⟩,
    ⟨_, _, [], fun _ => namedPIDReader.consume, id, fun _ => True⟩,
    pidMapInMemory net,
    ⟨_, _, [], fun _ => namedPIDLinkReader.consume, id, fun _ => True⟩,
    ⟨_, _, [], fun _ => tokenConsume, id, fun _ => True⟩,
    ⟨_, _, [], fun _ => singleTokenConsume, id, fun _ => True⟩,
    ⟨_, _, [], fun _ => pidReader.consume, id, fun _ => True⟩,
    ⟨_, _, weights, fun _ => (weightsReader strtod).consume, id, fun _ => True⟩]

/-- They are all readers. -/
theorem map_reader_memoryReaders (net : AddressText) (stack : Nat → Nat)
    (strtod : List Char → Double × List Char) (weights : Weights) :
    (memoryReaders net strtod weights).map (fun R => R.reader stack) =
      readers net stack strtod weights := by
  simp only [memoryReaders, pidMapInMemory, List.map_cons, List.map_nil, MemoryReader.reader,
    readers]

/-! ## Reading a PID map token by token -/

/-- What `ResponsePIDMapReader` makes of the tokens that are left. -/
def PIDMap.readTokens (net : AddressText) (stack : Nat → Nat) :
    List (List Char) → PIDMap → Option (PIDMap × Bool)
  | [], s => some (s, s.pidState != 0)
  | token :: tokens, s =>
    match s.pidState with
    | 0 => (castPID token).bind fun pid => readTokens net stack tokens (PIDMap.setPID pid s)
    | 1 => (castUnsigned token).bind fun n => readTokens net stack tokens (PIDMap.setCount n s)
    | _ => (castPrefix net token).bind fun p =>
      readTokens net stack tokens (PIDMap.addPrefix stack p s)

section Cons

variable {s : PIDMap} (token : List Char) (ts : List (List Char))

theorem readTokens_pid (h : s.pidState = 0) : PIDMap.readTokens net stack (token :: ts) s =
    (castPID token).bind fun pid => PIDMap.readTokens net stack ts (PIDMap.setPID pid s) := by
  simp only [PIDMap.readTokens, h]

theorem readTokens_count (h : s.pidState = 1) : PIDMap.readTokens net stack (token :: ts) s =
    (castUnsigned token).bind fun n => PIDMap.readTokens net stack ts (PIDMap.setCount n s) := by
  simp only [PIDMap.readTokens, h]

theorem readTokens_cast (h : s.pidState = 2) : PIDMap.readTokens net stack (token :: ts) s =
    (castPrefix net token).bind fun p =>
      PIDMap.readTokens net stack ts (PIDMap.addPrefix stack p s) := by
  simp only [PIDMap.readTokens, h]

end Cons

theorem consume_eq_readTokens (net : AddressText) (stack : Nat → Nat) (input : List Char)
    (s : PIDMap) : ((pidMapReader net stack).consume true input s).result =
      PIDMap.readTokens net stack (tokens isSpace input) s := by
  induction hn : input.length using Nat.strong_induction_on generalizing input s with
  | _ n ih =>
    have hsep : (pidMapReader net stack).sep = isSpace := rfl
    rw [TokenReader.consume_eq, TokenReader.body, TokenProg.run, hsep]
    rcases readToken_cases isSpace input with ⟨hread, htokens⟩ | ⟨token, rest, hread, htokens⟩
    · rw [hread, htokens, PIDMap.readTokens]
      have hrequire : (pidMapReader net stack).require s = (s.pidState != 0) := rfl
      simp only [hrequire, Bool.and_true]
      cases s.pidState != 0 <;> rfl
    · have hlt := readToken_length hread
      have hnext := fun s => ih rest.length (hn ▸ hlt) rest s rfl
      rw [hread, htokens, PIDMap.readTokens]
      simp only [← hnext]
      obtain ⟨out, state, prefixCount, curRecord, constructed⟩ := s
      rcases state with _ | _ | state
      · simp only [pidMapReader, pidOf]
        cases castPID token <;> rfl
      · simp only [pidMapReader, unsignedOf]
        cases castUnsigned token <;> rfl
      · simp only [pidMapReader, prefixOf]
        cases castPrefix net token <;> rfl

theorem read_pidMapInMemory (net : AddressText) (stack : Nat → Nat) (chunks : List (List Char)) :
    (pidMapInMemory net).read stack chunks =
      (PIDMap.readTokens net stack (tokens isSpace chunks.flatten) {}).map
        fun r => (r.1.records, r.2) := by
  have ha := absorbing_of_empty (pidMapReader net stack)
  have hread : ResponseReader.read (pidMapReader net stack).consume { state := {} } chunks =
      PIDMap.readTokens net stack (tokens isSpace chunks.flatten) {} := by
    rw [ResponseReader.read_eq_settle ha.continues.resumable (TokenReader.consume_nil _),
      ha.settle_eq, consume_eq_readTokens]
  exact congrArg (Option.map _) hread

/-! ## The prefixes of a record -/

/-- The prefixes of the record are these ones, with bytes behind them. -/
structure Kept (l : List ReadPrefix) (read : List IPPrefix) (prefixes : Finset ReadPrefix) : Prop where
  fst : l.map Prod.fst = read
  mem : prefixes = l.toFinset
  inet6 : ∀ x ∈ l, x.1.family = .inet6 → x.2 = 0

variable {l : List ReadPrefix} {read : List IPPrefix} {prefixes : Finset ReadPrefix} {count : Nat}

theorem kept_nil : Kept [] [] ∅ where
  fst := rfl
  mem := rfl
  inet6 _ h := absurd h List.not_mem_nil

namespace Kept

theorem length_eq (h : Kept l read prefixes) : l.length = read.length := by
  rw [← h.fst, List.length_map]

theorem card_le (h : Kept l read prefixes) : prefixes.card ≤ read.length := by
  rw [h.mem, ← h.length_eq]
  exact List.toFinset_card_le l

theorem card_eq (h : Kept l read prefixes) (hnodup : l.Nodup) : prefixes.card = read.length := by
  rw [h.mem, List.toFinset_card_of_nodup hnodup, h.length_eq]

theorem map_fst (h : Kept l read prefixes) (hnodup : l.Nodup) :
    prefixes.val.map Prod.fst = (read : Multiset IPPrefix) := by
  rw [h.mem, List.toFinset_val, hnodup.dedup, Multiset.map_coe, h.fst]

theorem nodup (h : Kept l read prefixes) (hread : read.Nodup) : l.Nodup :=
  .of_map Prod.fst (h.fst ▸ hread)

/-- One more prefix. An IPv6 prefix that is repeated is there already. -/
theorem keep (h : Kept l read prefixes) (stack : Nat → Nat) (n : Nat) (p : IPPrefix) :
    (p.family = .inet6 ∧ p ∈ read ∧
        Kept l (keep read p) (insert (readPrefix stack n p) prefixes)) ∨
      (p.family = .inet6 → p ∉ read) ∧
        Kept (l ++ [readPrefix stack n p]) (Response.keep read p)
          (insert (readPrefix stack n p) prefixes) := by
  by_cases hrepeated : p.family = .inet6 ∧ p ∈ read
  · left
    obtain ⟨hfamily, hmem⟩ := hrepeated
    have hzero : readPrefix stack n p = (p, 0) := by
      rw [readPrefix, hfamily]
      rfl
    have hin : readPrefix stack n p ∈ prefixes := by
      rw [← h.fst] at hmem
      obtain ⟨x, hx, rfl⟩ := List.mem_map.1 hmem
      rw [hzero, ← h.inet6 x hx hfamily, h.mem, List.mem_toFinset]
      exact hx
    rw [Response.keep, if_pos ⟨hfamily, hmem⟩, Finset.insert_eq_of_mem hin]
    exact ⟨hfamily, hmem, h⟩
  · right
    refine ⟨fun hfamily hmem => hrepeated ⟨hfamily, hmem⟩, ?_, ?_, ?_⟩
    · rw [List.map_append, h.fst, Response.keep, if_neg hrepeated]
      rfl
    · rw [h.mem, List.toFinset_append, Finset.insert_eq, Finset.union_comm]
      rfl
    · intro x hx hfamily
      rcases List.mem_append.1 hx with hx | hx
      · exact h.inet6 x hx hfamily
      · rw [List.mem_singleton.1 hx] at hfamily ⊢
        change p.family = .inet6 at hfamily
        rw [readPrefix, hfamily]
        rfl

theorem exists_keep (h : Kept l read prefixes) (stack : Nat → Nat) (n : Nat) (p : IPPrefix) :
    ∃ l', Kept l' (Response.keep read p) (insert (readPrefix stack n p) prefixes) := by
  rcases h.keep stack n p with ⟨-, -, hkept⟩ | ⟨-, hkept⟩
  · exact ⟨_, hkept⟩
  · exact ⟨_, hkept⟩

end Kept

/-! ## Steady responses -/

/-- The reader has come to this place. -/
def PIDMap.At (s : PIDMap) : Place → Prop
  | .pid => s.pidState = 0
  | .count => s.pidState = 1 ∧ s.curRecord.prefixes = ∅
  | .prefixes count read => s.pidState = 2 ∧ s.prefixCount = count ∧
    ∃ l, Kept l read s.curRecord.prefixes

/-- `cur_record_.add_prefix(prefix)`. -/
def PIDMap.withPrefix (stack : Nat → Nat) (p : IPPrefix) (s : PIDMap) : PIDMap :=
  { s with
    curRecord := { s.curRecord with
      prefixes := insert (readPrefix stack s.constructed p) s.curRecord.prefixes }
    constructed := s.constructed + 1 }

/-- What has been output at the place behind these prefixes. -/
def outputAt (pid : PID) (count : Nat) (read : List IPPrefix) : List (PID × Multiset IPPrefix) :=
  if read.length < count then [] else [(pid, read)]

/-- A token has brought the reader behind these prefixes. -/
structure PIDMap.Passes (s s' : PIDMap) (count : Nat) (read : List IPPrefix) : Prop where
  place : s'.At (.next count read)
  pid : s'.curRecord.pid = s.curRecord.pid
  records : s'.records = s.records ++ outputAt s.curRecord.pid count read

/-- The end of the loop, where a record that comes to its end repeats no prefix. -/
theorem PIDMap.endRecord_of_kept {s : PIDMap} (hstate : s.pidState = 2)
    (hkept : Kept l read s.curRecord.prefixes) (hnodup : s.prefixCount ≤ read.length → l.Nodup) :
    s.Passes s.endRecord s.prefixCount read := by
  by_cases hlt : read.length < s.prefixCount
  · have hend : s.endRecord = s := if_pos (hkept.card_le.trans_lt hlt)
    have hnext : Place.next s.prefixCount read = .prefixes s.prefixCount read := if_pos hlt
    refine ⟨?_, congrArg (·.curRecord.pid) hend, ?_⟩
    · rw [hend, hnext]
      exact ⟨hstate, rfl, l, hkept⟩
    · rw [hend, outputAt, if_pos hlt, List.append_nil]
  · have hnodup := hnodup (Nat.le_of_not_lt hlt)
    have hcard := hkept.card_eq hnodup
    have hend : s.endRecord = { s with pidState := 0, out := s.out ++ [s.curRecord] } :=
      if_neg (by omega)
    have hnext : Place.next s.prefixCount read = .pid := if_neg hlt
    refine ⟨?_, congrArg (·.curRecord.pid) hend, ?_⟩
    · rw [hend, hnext]
      exact rfl
    · rw [hend, outputAt, if_neg hlt, PIDMap.records, PIDMap.records, List.map_append,
        List.map_singleton, hkept.map_fst hnodup]

theorem PIDMap.passes_setCount {s : PIDMap} (hempty : s.curRecord.prefixes = ∅) (n : Nat) :
    s.Passes (PIDMap.setCount n s) n [] := by
  obtain ⟨hplace, hpid, hrecords⟩ := PIDMap.endRecord_of_kept
    (s := { s with prefixCount := n, pidState := 2 }) rfl (by rw [hempty]; exact kept_nil)
    fun _ => List.nodup_nil
  exact ⟨hplace, hpid, hrecords⟩

theorem PIDMap.passes_addPrefix {s : PIDMap} (hstate : s.pidState = 2)
    (hkept : Kept l read s.curRecord.prefixes) (stack : Nat → Nat) {p : IPPrefix}
    (hnodup : s.prefixCount ≤ (keep read p).length → (keep read p).Nodup) :
    s.Passes (PIDMap.addPrefix stack p s) s.prefixCount (keep read p) := by
  obtain ⟨l', hkept'⟩ := hkept.exists_keep stack s.constructed p
  obtain ⟨hplace, hpid, hrecords⟩ := PIDMap.endRecord_of_kept (s := s.withPrefix stack p) hstate hkept'
    fun hle => hkept'.nodup (hnodup hle)
  exact ⟨hplace, hpid, hrecords⟩

/-- From the same place on two readers come to the same, if no record repeats a prefix. -/
theorem readTokens_steady {ts : List (List Char)} {place : Place} (hnone : NoneRepeated net place ts)
    {s s' : PIDMap} (hs : s.At place) (hs' : s'.At place)
    (hpid : s.curRecord.pid = s'.curRecord.pid) (hrecords : s.records = s'.records) :
    (PIDMap.readTokens net stack ts s).map (fun r => (r.1.records, r.2)) =
      (PIDMap.readTokens net stack' ts s').map fun r => (r.1.records, r.2) := by
  induction ts generalizing place s s' with
  | nil =>
    have hstate : s.pidState = s'.pidState := by
      cases place with
      | pid => exact hs.trans hs'.symm
      | count => exact hs.1.trans hs'.1.symm
      | prefixes count read => exact hs.1.trans hs'.1.symm
    rw [PIDMap.readTokens, PIDMap.readTokens, Option.map_some, Option.map_some, hrecords, hstate]
  | cons token ts ih =>
    cases place with
    | pid =>
      have hstate : s.pidState = 0 := hs
      have hstate' : s'.pidState = 0 := hs'
      rw [readTokens_pid token ts hstate, readTokens_pid token ts hstate']
      cases hcast : castPID token with
      | none => rw [Option.bind_none, Option.bind_none]
      | some pid =>
        rw [Option.bind_some, Option.bind_some]
        exact ih (hnone pid hcast) ⟨rfl, rfl⟩ ⟨rfl, rfl⟩ rfl hrecords
    | count =>
      obtain ⟨hstate, hempty⟩ := hs
      obtain ⟨hstate', hempty'⟩ := hs'
      rw [readTokens_count token ts hstate, readTokens_count token ts hstate']
      cases hcast : castUnsigned token with
      | none => rw [Option.bind_none, Option.bind_none]
      | some n =>
        have h := PIDMap.passes_setCount hempty n
        have h' := PIDMap.passes_setCount hempty' n
        rw [Option.bind_some, Option.bind_some]
        refine ih (hnone n hcast) h.place h'.place (h.pid.trans (hpid.trans h'.pid.symm)) ?_
        rw [h.records, h'.records, hrecords, hpid]
    | prefixes count read =>
      obtain ⟨hstate, hcount, l, hkept⟩ := hs
      obtain ⟨hstate', hcount', l', hkept'⟩ := hs'
      rw [readTokens_cast token ts hstate, readTokens_cast token ts hstate']
      cases hcast : castPrefix net token with
      | none => rw [Option.bind_none, Option.bind_none]
      | some p =>
        obtain ⟨hnodup, hnone⟩ := hnone p hcast
        have h := PIDMap.passes_addPrefix hstate hkept stack (hcount ▸ hnodup)
        have h' := PIDMap.passes_addPrefix hstate' hkept' stack' (hcount' ▸ hnodup)
        rw [hcount] at h
        rw [hcount'] at h'
        rw [Option.bind_some, Option.bind_some]
        refine ih hnone h.place h'.place (h.pid.trans (hpid.trans h'.pid.symm)) ?_
        rw [h.records, h'.records, hrecords, hpid]

/-! ## Records that repeat a prefix -/

/-- In memory that holds zeros a record has each prefix once. -/
structure PIDMap.Zeroed (s : PIDMap) : Prop where
  cur : ∀ x ∈ s.curRecord.prefixes, x.2 = 0
  out : ∀ r ∈ s.records, r.2.Nodup

theorem PIDMap.Zeroed.endRecord {s : PIDMap} (h : s.Zeroed) : s.endRecord.Zeroed := by
  unfold PIDMap.endRecord
  split
  · exact h
  · refine ⟨h.cur, fun r hr => ?_⟩
    rw [PIDMap.records, List.map_append, List.mem_append] at hr
    rcases hr with hr | hr
    · exact h.out r hr
    · rw [List.mem_singleton.1 hr]
      refine Multiset.Nodup.map_on (fun x hx y hy hxy => ?_) s.curRecord.prefixes.nodup
      exact Prod.ext hxy ((h.cur x hx).trans (h.cur y hy).symm)

/-- What a token does to the reader it goes on with. -/
theorem readTokens_cons {ts : List (List Char)} {token : List Char} {s : PIDMap}
    {result : PIDMap × Bool}
    (hread : PIDMap.readTokens net stack (token :: ts) s = some result) :
    (s.pidState = 0 ∧ ∃ pid, castPID token = some pid ∧
        PIDMap.readTokens net stack ts (PIDMap.setPID pid s) = some result) ∨
      (s.pidState = 1 ∧ ∃ n, castUnsigned token = some n ∧
        PIDMap.readTokens net stack ts (PIDMap.setCount n s) = some result) ∨
      s.pidState ≠ 0 ∧ s.pidState ≠ 1 ∧ ∃ p, castPrefix net token = some p ∧
        PIDMap.readTokens net stack ts (PIDMap.addPrefix stack p s) = some result := by
  rw [PIDMap.readTokens] at hread
  split at hread
  · exact .inl ⟨‹_›, Option.bind_eq_some_iff.1 hread⟩
  · exact .inr (.inl ⟨‹_›, Option.bind_eq_some_iff.1 hread⟩)
  · exact .inr (.inr ⟨‹_›, ‹_›, Option.bind_eq_some_iff.1 hread⟩)

/-- What every token keeps. -/
theorem readTokens_keeps {I : PIDMap → Prop} (hpid : ∀ s pid, I s → I (PIDMap.setPID pid s))
    (hcount : ∀ s n, I s → I (PIDMap.setCount n s))
    (hadds : ∀ s p, I s → I (PIDMap.addPrefix stack p s)) {ts : List (List Char)}
    {s s' : PIDMap} {failed : Bool}
    (hread : PIDMap.readTokens net stack ts s = some (s', failed)) (h : I s) : I s' := by
  induction ts generalizing s with
  | nil =>
    rw [PIDMap.readTokens, Option.some.injEq, Prod.mk.injEq] at hread
    exact hread.1 ▸ h
  | cons token ts ih =>
    rcases readTokens_cons hread with
      ⟨-, pid, -, hrest⟩ | ⟨-, n, -, hrest⟩ | ⟨-, -, p, -, hrest⟩
    · exact ih hrest (hpid s pid h)
    · exact ih hrest (hcount s n h)
    · exact ih hrest (hadds s p h)

theorem zeroed_readTokens {ts : List (List Char)} {s s' : PIDMap} {failed : Bool}
    (hread : PIDMap.readTokens net (fun _ => 0) ts s = some (s', failed)) (h : s.Zeroed) :
    s'.Zeroed := by
  refine readTokens_keeps (fun s pid h => ?_) (fun s n h => ?_) (fun s p h => ?_) hread h
  · exact ⟨fun x hx => absurd hx (Finset.notMem_empty x), h.out⟩
  · exact PIDMap.Zeroed.endRecord (s := { s with prefixCount := n, pidState := 2 }) ⟨h.cur, h.out⟩
  · refine PIDMap.Zeroed.endRecord (s := s.withPrefix (fun _ => 0) p) ⟨fun x hx => ?_, h.out⟩
    rcases Finset.mem_insert.1 hx with rfl | hx
    · exact ite_self _
    · exact h.cur x hx

/-- Records are only added. -/
theorem mem_records_endRecord {s : PIDMap} {r : PID × Multiset IPPrefix} (h : r ∈ s.records) :
    r ∈ s.endRecord.records := by
  unfold PIDMap.endRecord
  split
  · exact h
  · rw [PIDMap.records, List.map_append]
    exact List.mem_append_left _ h

theorem mem_records_readTokens {ts : List (List Char)} {s s' : PIDMap} {failed : Bool}
    (hread : PIDMap.readTokens net stack ts s = some (s', failed)) {r : PID × Multiset IPPrefix}
    (h : r ∈ s.records) : r ∈ s'.records :=
  readTokens_keeps (I := fun s => r ∈ s.records) (fun _ _ h => h)
    (fun s n h => mem_records_endRecord (s := { s with prefixCount := n, pidState := 2 }) h)
    (fun s p h => mem_records_endRecord (s := s.withPrefix stack p) h) hread h

/-- The reader has come to this place, with different bytes behind the prefixes of its record. -/
def PIDMap.AtApart (s : PIDMap) : Place → Prop
  | .pid => s.pidState = 0
  | .count => s.pidState = 1 ∧ s.curRecord.prefixes = ∅
  | .prefixes count read => s.pidState = 2 ∧ s.prefixCount = count ∧
    ∃ l, Kept l read s.curRecord.prefixes ∧ l.Nodup ∧
      ∀ x ∈ l, x.1.family = .inet → x.2 < s.constructed

/-- The next prefix differs from those of its record. -/
theorem Kept.keep_apart (h : Kept l read prefixes) (hnodup : l.Nodup) {n : Nat}
    (hlt : ∀ x ∈ l, x.1.family = .inet → x.2 < n) (p : IPPrefix) :
    ∃ l', Kept l' (Response.keep read p) (insert (readPrefix id n p) prefixes) ∧ l'.Nodup ∧
      ∀ x ∈ l', x.1.family = .inet → x.2 < n + 1 := by
  rcases h.keep id n p with ⟨-, -, hkept⟩ | ⟨hnew, hkept⟩
  · exact ⟨l, hkept, hnodup, fun x hx hfamily => (hlt x hx hfamily).trans (Nat.lt_succ_self n)⟩
  refine ⟨_, hkept, ?_, fun x hx hfamily => ?_⟩
  · rw [← List.concat_eq_append, List.nodup_concat]
    refine ⟨fun hmem => ?_, hnodup⟩
    cases hfamily : p.family with
    | inet =>
      have hbytes := hlt _ hmem hfamily
      rw [readPrefix, if_pos hfamily] at hbytes
      exact absurd hbytes (lt_irrefl n)
    | inet6 => exact hnew hfamily (h.fst ▸ List.mem_map.2 ⟨_, hmem, rfl⟩)
  · rcases List.mem_append.1 hx with hx | hx
    · exact (hlt x hx hfamily).trans (Nat.lt_succ_self n)
    · rw [List.mem_singleton.1 hx] at hfamily ⊢
      change p.family = .inet at hfamily
      rw [readPrefix, if_pos hfamily]
      exact Nat.lt_succ_self n

/-- The end of the loop, where the prefixes of a record differ. -/
theorem PIDMap.endRecord_of_apart {s : PIDMap} (hstate : s.pidState = 2)
    (hkept : Kept l read s.curRecord.prefixes) (hnodup : l.Nodup)
    (hlt : ∀ x ∈ l, x.1.family = .inet → x.2 < s.constructed) :
    s.endRecord.AtApart (.next s.prefixCount read) ∧
      (s.prefixCount ≤ read.length → (s.curRecord.pid, (read : Multiset IPPrefix)) ∈
        s.endRecord.records) := by
  have hcard := hkept.card_eq hnodup
  have hpasses := PIDMap.endRecord_of_kept hstate hkept fun _ => hnodup
  constructor
  · by_cases hshort : read.length < s.prefixCount
    · have hend : s.endRecord = s := if_pos (by omega)
      rw [hend, Place.next, if_pos hshort]
      exact ⟨hstate, rfl, l, hkept, hnodup, hlt⟩
    · have hplace := hpasses.place
      rw [Place.next, if_neg hshort] at hplace ⊢
      exact hplace
  · intro hle
    rw [hpasses.records, outputAt, if_neg (Nat.not_lt_of_le hle)]
    exact List.mem_append_right _ (List.mem_singleton_self _)

/-- In memory that differs everywhere, a record that repeats an IPv4 prefix comes to its end with it. -/
theorem noneRepeated_of_nodup {ts : List (List Char)} {place : Place} {s s' : PIDMap} {failed : Bool}
    (hat : s.AtApart place) (hread : PIDMap.readTokens net id ts s = some (s', failed))
    (hnodup : ∀ r ∈ s'.records, r.2.Nodup) : NoneRepeated net place ts := by
  induction ts generalizing place s with
  | nil => cases place <;> trivial
  | cons token ts ih =>
    cases place with
    | pid =>
      intro pid (hcast : castPID token = some pid)
      have hstate : s.pidState = 0 := hat
      rw [readTokens_pid token ts hstate, hcast, Option.bind_some] at hread
      exact ih ⟨rfl, rfl⟩ hread
    | count =>
      intro n (hcast : castUnsigned token = some n)
      obtain ⟨hstate, hempty⟩ := hat
      rw [readTokens_count token ts hstate, hcast, Option.bind_some] at hread
      obtain ⟨hat, -⟩ := PIDMap.endRecord_of_apart
        (s := { s with prefixCount := n, pidState := 2 }) rfl (by rw [hempty]; exact kept_nil)
        List.nodup_nil fun x hx => absurd hx List.not_mem_nil
      exact ih hat hread
    | prefixes count read =>
      intro p (hcast : castPrefix net token = some p)
      obtain ⟨hstate, rfl, l, hkept, hl, hlt⟩ := hat
      rw [readTokens_cast token ts hstate, hcast, Option.bind_some] at hread
      obtain ⟨l', hkept', hl', hlt'⟩ := hkept.keep_apart hl hlt p
      obtain ⟨hat, hmem⟩ := PIDMap.endRecord_of_apart (s := s.withPrefix id p) hstate hkept' hl' hlt'
      refine ⟨fun hle => ?_, ih hat hread⟩
      exact Multiset.coe_nodup.1 (hnodup _ (mem_records_readTokens hread (hmem hle)))

/-! ## All readers -/

/-- A reader that looks at no uninitialised memory. -/
theorem MemoryReader.independent_of_flatten {S : Type} {consume : Bool → List Char → S → Consumed Char S}
    {init : S} {Steady : List (List Char) → Prop}
    (hflatten : ∀ chunks, Reader.read ⟨S, init, consume⟩ chunks =
      Reader.read ⟨S, init, consume⟩ [chunks.flatten]) (text : List Char) :
    MemoryReader.Independent ⟨S, S, init, fun _ => consume, id, Steady⟩ text := by
  rintro stack stack' chunks rfl
  exact congrArg (Option.map _) (hflatten chunks)

/-- The readings of a PID map. -/
theorem independent_pidMap_iff (net : AddressText) (text : List Char) :
    (NoneRepeated net .pid (tokens isSpace text) → (pidMapInMemory net).Independent text) ∧
    ∀ stack, (pidMapInMemory net).read stack [text] ≠ none →
      (pidMapInMemory net).Independent text → NoneRepeated net .pid (tokens isSpace text) := by
  constructor
  · rintro hnone stack stack' chunks rfl
    rw [read_pidMapInMemory, read_pidMapInMemory, List.flatten_singleton]
    exact readTokens_steady hnone rfl rfl rfl rfl
  · intro stack hdefined hindependent
    obtain ⟨r, hr⟩ := Option.ne_none_iff_exists'.1 hdefined
    -- the readings in memory that holds zeros and in memory that differs everywhere
    have hread : ∀ stack', ∃ s failed,
        PIDMap.readTokens net stack' (tokens isSpace text) {} = some (s, failed) ∧
          s.records = r.1 := by
      intro stack'
      have hagree := hindependent stack' stack [text] List.flatten_singleton
      rw [hr, read_pidMapInMemory, List.flatten_singleton] at hagree
      obtain ⟨⟨s, failed⟩, hread, heq⟩ := Option.map_eq_some_iff.1 hagree
      exact ⟨s, failed, hread, congrArg Prod.fst heq⟩
    obtain ⟨s₀, failed₀, hread₀, hrecords₀⟩ := hread fun _ => 0
    obtain ⟨s₁, failed₁, hread₁, hrecords₁⟩ := hread id
    have hzeroed := zeroed_readTokens hread₀
      ⟨fun x hx => absurd hx (Finset.notMem_empty x), fun r hr => absurd hr List.not_mem_nil⟩
    refine noneRepeated_of_nodup (show PIDMap.AtApart {} .pid from rfl) hread₁ fun r hr => ?_
    exact hzeroed.out r (hrecords₀ ▸ hrecords₁ ▸ hr)

/-- The readings of a response agree, however it is cut, if no record of a PID map that comes to its end
repeats an IPv4 prefix; and, where the behaviour is defined, only then. -/
theorem readings_agree_iff (net : AddressText) (strtod : List Char → Double × List Char)
    (weights : Weights) :
    ∀ R ∈ memoryReaders net strtod weights, ∀ text : List Char,
      (R.Steady (tokens isSpace text) → R.Independent text) ∧
      ∀ stack, R.read stack [text] ≠ none → R.Independent text →
        R.Steady (tokens isSpace text) := by
  have hflatten := read_eq_read_flatten net (fun _ => 0) strtod weights
  simp only [readers, List.forall_mem_cons] at hflatten
  obtain ⟨h₁, h₂, h₃, h₄, h₅, -, h₇, h₈, h₉, h₁₀, h₁₁, -⟩ := hflatten
  have hplain : ∀ {S : Type} {consume : Bool → List Char → S → Consumed Char S} {init : S},
      (∀ chunks, Reader.read ⟨S, init, consume⟩ chunks =
        Reader.read ⟨S, init, consume⟩ [chunks.flatten]) → ∀ text : List Char,
      (True → MemoryReader.Independent ⟨S, S, init, fun _ => consume, id, fun _ => True⟩ text) ∧
        ∀ stack, MemoryReader.read ⟨S, S, init, fun _ => consume, id, fun _ => True⟩ stack [text] ≠
          none → MemoryReader.Independent ⟨S, S, init, fun _ => consume, id, fun _ => True⟩ text →
          True :=
    fun h text => ⟨fun _ => MemoryReader.independent_of_flatten h text, fun _ _ _ => trivial⟩
  simp only [memoryReaders, List.forall_mem_cons]
  exact ⟨hplain h₁, hplain h₂, hplain h₃, hplain h₄, hplain h₅, independent_pidMap_iff net, hplain h₇,
    hplain h₈, hplain h₉, hplain h₁₀, hplain h₁₁, fun _ h => absurd h List.not_mem_nil⟩

/-- A PID with two prefixes, and one with one of them. -/
def tenResponse : List Char :=
  "1.i.isp 2 10.0.0.0/8 10.1.0.0/16\r\n2.i.isp 1 10.1.0.0/16\r\n".toList

theorem readings_agree_ten : (pidMapInMemory Portal.tenText).Independent tenResponse := by
  have htokens : tokens isSpace tenResponse = ["1.i.isp".toList, ['2'], "10.0.0.0/8".toList,
      "10.1.0.0/16".toList, "2.i.isp".toList, ['1'], "10.1.0.0/16".toList] := by decide +kernel
  refine (readings_agree_iff Portal.tenText (fun text => (.nan, text)) ⟨∅, ∅, ∅, ∅⟩
    (pidMapInMemory Portal.tenText) (by simp [memoryReaders]) tenResponse).1 ?_
  change NoneRepeated Portal.tenText .pid (tokens isSpace tenResponse)
  rw [htokens]
  decide +kernel

/-- The record has two prefixes where the bytes behind them differ, and misses one where they do not. -/
theorem readings_disagree : ¬ (pidMapInMemory Portal.tenText).Independent
    "1.i.isp 2 10.0.0.0/8 10.0.0.0/8\r\n".toList := by
  intro h
  have hread := h id (fun _ => 0)
    ["1.i.isp 2 10.0.0.0/8 ".toList, "10.0.0.0/8\r\n".toList] (by decide)
  have htokens : tokens isSpace "1.i.isp 2 10.0.0.0/8 10.0.0.0/8\r\n".toList =
      ["1.i.isp".toList, ['2'], "10.0.0.0/8".toList, "10.0.0.0/8".toList] := by decide +kernel
  rw [read_pidMapInMemory, read_pidMapInMemory, List.flatten_singleton,
    show List.flatten _ = "1.i.isp 2 10.0.0.0/8 10.0.0.0/8\r\n".toList from rfl, htokens] at hread
  have hfailed := congrArg (Option.map Prod.snd) hread
  exact absurd hfailed (by decide +kernel)

end Alto.Response
