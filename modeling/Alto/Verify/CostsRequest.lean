import Alto.Portal.AltoHandlers
import Alto.Verify.RequestWriter

/-!
# Requests for costs

`GetCostsProcess` reads records until one cannot be read. Where the body ends inside a record, the
macro `REQUEST_READ_ERR` takes the failure for the end of the request: the record is dropped, or, in
the loop over its destinations, the last destination is stored again as often as the count says.
-/

namespace Alto.Portal

open Lib Server IStream

/-! ## The grammar -/

/-- A record of a request. -/
structure CostsRecord where
  src : PID
  reverse : Bool
  dsts : List PID

/-- PIDs one behind the other, and what follows them. -/
inductive ReadsPids : List Char → List PID → List Char → Prop
  | nil {input : List Char} : ReadsPids input [] input
  | cons {input rest : List Char} {p : PID} {ps : List PID} {req : IStream}
      (h : getPID { rest := input } = (some p, req)) (hs : ReadsPids req.rest ps rest) :
      ReadsPids input (p :: ps) rest

/-- A whole record, and what follows it. -/
def ReadsRecord (input : List Char) (record : CostsRecord) (rest : List Char) : Prop :=
  ∃ req, Header input record.src (flagText record.reverse) record.dsts.length req ∧
    ReadsPids req.rest record.dsts rest

/-- A sequence of records, with white space behind it. -/
inductive ReadsRecords : List Char → List CostsRecord → Prop
  | nil {input : List Char} (h : ∀ c ∈ input, isSpace c = true) : ReadsRecords input []
  | cons {input rest : List Char} {record : CostsRecord} {records : List CostsRecord}
      (h : ReadsRecord input record rest) (hs : ReadsRecords rest records) :
      ReadsRecords input (record :: records)

/-- The stream behind the extraction of a header. -/
def headerStream (input : List Char) : IStream :=
  (getPID { rest := input }).2.getString.2.getUnsigned.2

/-- The body ends inside a record: the end is where the source, the flag or the count of a record, or
one of the destinations that its count announces, cannot be read. -/
inductive EndsInside : List Char → Prop
  | header {input : List Char} (hne : ∃ c ∈ input, isSpace c = false)
      (hno : ∀ src reverse dstCount req, ¬ Header input src reverse dstCount req)
      (heof : (headerStream input).eof = true) : EndsInside input
  | dsts {input rest : List Char} {src : PID} {reverse : Bool} {dstCount : Nat} {dsts : List PID}
      {req req' : IStream} (h : Header input src (flagText reverse) dstCount req)
      (hs : ReadsPids req.rest dsts rest) (hlt : dsts.length < dstCount)
      (hno : getPID { rest } = (none, req')) (heof : req'.eof = true) : EndsInside input
  | record {input rest : List Char} {record : CostsRecord} (h : ReadsRecord input record rest)
      (hs : EndsInside rest) : EndsInside input

/-! ## The work -/

/-- The rounds of the loop over the destinations, at the end of a request. -/
def dstRounds : Nat → IStream → Nat
  | 0, _ => 0
  | n + 1, req =>
    match req.getPID with
    | (some _, req) => 1 + dstRounds n req
    | (none, req) =>
      match requestReadErr true req with
      | .ignore => 1 + dstRounds n req
      | _ => 1

/-- The rounds of the two loops in a turn of the outer one. -/
def turnRounds (req : IStream) : Nat :=
  let (src, req) := req.getPID
  let (reverse, req) := req.getString
  let (dstCount, req) := req.getUnsigned
  match src, reverse, dstCount with
  | some _, some reverse, some dstCount =>
    if reverse = "inc-reverse".toList ∨ reverse = "no-reverse".toList then 1 + dstRounds dstCount req
    else 1
  | _, _, _ => 1

/-- The rounds of both loops of `GetCostsProcess`, at the end of a request. -/
def costsRounds : Nat → IStream → GetCostsState → Nat
  | 0, _, _ => 0
  | fuel + 1, req, data =>
    turnRounds req +
      match getCostsProcess true req data with
      | .mark req data => costsRounds fuel req data
      | .ret _ _ _ => 0

/-! ## Destinations -/

section Dsts

variable {input rest : List Char} {p q : PID} {ps qs : List PID} {req : IStream} {n : Nat}

theorem ReadsPids.length_le (h : ReadsPids input ps rest) :
    rest.length + ps.length ≤ input.length := by
  induction h with
  | nil => exact le_rfl
  | cons h _ ih =>
    have := extracts_getPID.length_lt h
    simp only [List.length_cons]
    omega

theorem ReadsPids.unique {rest' : List Char} (h : ReadsPids input ps rest)
    (h' : ReadsPids input qs rest') (hlen : ps.length = qs.length) : ps = qs ∧ rest = rest' := by
  induction h generalizing qs with
  | nil =>
    obtain rfl : qs = [] := List.length_eq_zero_iff.1 hlen.symm
    cases h'
    exact ⟨rfl, rfl⟩
  | cons h _ ih =>
    cases h' with
    | nil => cases hlen
    | cons h' hs' =>
      cases h.symm.trans h'
      obtain ⟨rfl, rfl⟩ := ih hs' (Nat.succ.inj hlen)
      exact ⟨rfl, rfl⟩

/-- Fewer destinations than can be read are never all that is there. -/
theorem ReadsPids.not_none {rest' : List Char} (h : ReadsPids input ps rest)
    (h' : ReadsPids input qs rest') (hlt : qs.length < ps.length) :
    (getPID { rest := rest' }).1 ≠ none := by
  induction h' generalizing ps with
  | nil =>
    cases h with
    | nil => cases hlt
    | cons h _ =>
      rw [h]
      nofun
  | cons h' _ ih =>
    cases h with
    | nil => cases hlt
    | cons h hs =>
      cases h.symm.trans h'
      exact ih hs (Nat.lt_of_succ_lt_succ hlt)

/-- The destinations that can be read: all, or fewer. -/
theorem readsPids_cases (n : Nat) (input : List Char) :
    (∃ ps rest, ReadsPids input ps rest ∧ ps.length = n) ∨
      ∃ ps rest req, ReadsPids input ps rest ∧ ps.length < n ∧ getPID { rest } = (none, req) := by
  induction n generalizing input with
  | zero => exact .inl ⟨[], input, .nil, rfl⟩
  | succ n ih =>
    rcases h : getPID { rest := input } with ⟨_ | p, req⟩
    · exact .inr ⟨[], input, req, .nil, Nat.succ_pos n, h⟩
    · rcases ih req.rest with ⟨ps, rest, hs, hlen⟩ | ⟨ps, rest, req', hs, hlt, hno⟩
      · exact .inl ⟨p :: ps, rest, .cons h hs, congrArg Nat.succ hlen⟩
      · exact .inr ⟨p :: ps, rest, req', .cons h hs, Nat.succ_lt_succ hlt, hno⟩

/-- The loop over the destinations, up to those that can be read. -/
theorem readDsts_reads (h : ReadsPids input ps rest) (n : Nat) (dst : PID) {req : IStream}
    (hreq : req.Settled) (hrest : req.rest = input) (dsts : StdSet PID) :
    ∃ dst' req', req'.Settled ∧ req'.rest = rest ∧
      readDsts true (ps.length + n) dst req dsts =
        readDsts true n dst' req' (ps.foldl (fun dsts p => dsts.insert p) dsts) ∧
      dstRounds (ps.length + n) req = ps.length + dstRounds n req' := by
  induction h generalizing dst req dsts with
  | nil => exact ⟨dst, req, hreq, hrest, by simp, by simp⟩
  | @cons input rest p ps req₁ h _ ih =>
    obtain ⟨dst', req', hreq', hrest', hread, hrounds⟩ :=
      ih p (extracts_getPID.settled_some h) rfl (dsts.insert p)
    have hlen : (p :: ps).length + n = ps.length + n + 1 := by simp only [List.length_cons]; omega
    have hget : req.getPID = (some p, req₁) := by rw [extracts_getPID.settled hreq, hrest, h]
    refine ⟨dst', req', hreq', hrest', ?_, ?_⟩
    · rw [hlen, readDsts, hget]
      exact hread
    · rw [hlen, dstRounds, hget]
      simp only [hrounds, List.length_cons]
      omega

/-- At the end of the body, the loop goes on to its end. -/
theorem readDsts_ignore (n : Nat) (dst : PID) {req : IStream} (heof : req.eof = true)
    (dsts : StdSet PID) : ∃ req' dsts', readDsts true n dst req dsts = .done req' dsts' ∧
      req'.rest = req.rest := by
  induction n generalizing req dsts with
  | zero => exact ⟨req, dsts, rfl, rfl⟩
  | succ n ih =>
    have hnone : getPID req = (none, { req with fail := true }) :=
      extracts_getPID.bad (by simp [good, heof])
    have herr : requestReadErr true { req with fail := true } = .ignore := by
      simp [requestReadErr, heof]
    have hrest : ({ req with fail := true } : IStream).eof = true := heof
    simp only [readDsts, hnone, herr]
    exact ih hrest _

end Dsts

/-! ## Turns -/

section Turns

variable {input rest reverse : List Char} {src : PID} {dstCount : Nat} {req : IStream}
  {record : CostsRecord} {records : List CostsRecord} {data : GetCostsState}

theorem Header.unique {src' : PID} {reverse' : List Char} {dstCount' : Nat} {req' : IStream}
    (h : Header input src reverse dstCount req) (h' : Header input src' reverse' dstCount' req') :
    src = src' ∧ reverse = reverse' ∧ dstCount = dstCount' ∧ req = req' := by
  obtain ⟨req₁, req₂, h₁, h₂, h₃⟩ := h.read
  obtain ⟨req₁', req₂', h₁', h₂', h₃'⟩ := h'.read
  cases h₁.symm.trans h₁'
  cases h₂.symm.trans h₂'
  cases h₃.symm.trans h₃'
  exact ⟨rfl, rfl, rfl, rfl⟩

theorem flagText_inj {r r' : Bool} (h : flagText r = flagText r') : r = r' := by
  cases r <;> cases r' <;> first | rfl | exact absurd h (by decide)

/-- White space is not the beginning of a record. -/
theorem Header.not_space (h : Header input src reverse dstCount req) :
    ∃ c ∈ input, isSpace c = false := by
  obtain ⟨_, _, h₁, -, -⟩ := h.read
  obtain ⟨-, front, token, rfl, htoken⟩ := extracts_getPID.some h₁
  obtain ⟨c, tail, rfl⟩ := List.exists_cons_of_ne_nil htoken.ne_nil
  exact ⟨c, by simp, htoken.noSpace c List.mem_cons_self⟩

/-- The record at the beginning of a text is determined by it. -/
theorem ReadsRecord.unique {record' : CostsRecord} {rest' : List Char}
    (h : ReadsRecord input record rest) (h' : ReadsRecord input record' rest') :
    record = record' ∧ rest = rest' := by
  obtain ⟨src, reverse, dsts⟩ := record
  obtain ⟨src', reverse', dsts'⟩ := record'
  obtain ⟨req, hheader, hdsts⟩ := h
  obtain ⟨req', hheader', hdsts'⟩ := h'
  obtain ⟨rfl, hflag, hlen, rfl⟩ := hheader.unique hheader'
  obtain ⟨rfl, rfl⟩ := hdsts.unique hdsts' hlen
  obtain rfl := flagText_inj hflag
  exact ⟨rfl, rfl⟩

/-- A body that ends inside a record is no sequence of records. -/
theorem EndsInside.not_records (h : EndsInside input) (records : List CostsRecord) :
    ¬ ReadsRecords input records := by
  induction h generalizing records with
  | header hne hno heof =>
    rintro (h | ⟨⟨req, h, -⟩, -⟩)
    · obtain ⟨c, hc, hspace⟩ := hne
      exact absurd ((h c hc).symm.trans hspace) (by simp)
    · exact hno _ _ _ _ h
  | dsts h hs hlt hno _ =>
    rintro (h' | ⟨⟨req', h', hs'⟩, -⟩)
    · obtain ⟨c, hc, hspace⟩ := h.not_space
      exact absurd ((h' c hc).symm.trans hspace) (by simp)
    · obtain ⟨-, -, rfl, rfl⟩ := h.unique h'
      exact hs'.not_none hs hlt (by rw [hno])
  | record h _ ih =>
    rintro (h' | ⟨h', hs'⟩)
    · obtain ⟨req, hheader, -⟩ := h
      obtain ⟨c, hc, hspace⟩ := hheader.not_space
      exact absurd ((h' c hc).symm.trans hspace) (by simp)
    · obtain ⟨-, rfl⟩ := h.unique h'
      exact ih _ hs'

/-- What is stored of a record. -/
def CostsRecord.store (data : GetCostsState) (record : CostsRecord) : GetCostsState :=
  if record.dsts = [] then { data.setEntry record.src record.reverse ∅ with needAll := true }
  else data.setEntry record.src record.reverse (pidSetOf record.dsts)

theorem turnRounds_of_header {r : Bool} (h : Header input src (flagText r) dstCount req) :
    turnRounds { rest := input } = 1 + dstRounds dstCount req := by
  obtain ⟨req₁, req₂, h₁, h₂, h₃⟩ := h.read
  simp only [turnRounds, h₁, h₂, h₃]
  cases r <;> simp [flagText]

/-- The turn that reads a record. -/
theorem ReadsRecord.turn (h : ReadsRecord input record rest) (data : GetCostsState) :
    (∃ req, req.Settled ∧ req.rest = rest ∧
      getCostsProcess true { rest := input } data = .mark req (record.store data)) ∧
    turnRounds { rest := input } + rest.length ≤ input.length := by
  obtain ⟨req, hheader, hdsts⟩ := h
  obtain ⟨hreq, front, hne, hinput⟩ := hheader.settled
  have hlen := hdsts.length_le
  have hpos : 0 < front.length := List.length_pos_of_ne_nil hne
  obtain ⟨dst', req', hreq', hrest', hread, hrounds⟩ := readDsts_reads hdsts 0 default hreq rfl ∅
  rw [Nat.add_zero] at hread hrounds
  refine ⟨?_, ?_⟩
  · rw [hheader.turn, entryTurn_flagText, readEntry]
    split
    · next hzero =>
      have hnil : record.dsts = [] := List.length_eq_zero_iff.1 hzero
      rw [hnil] at hdsts
      cases hdsts
      exact ⟨req, hreq, rfl, by rw [CostsRecord.store, if_pos hnil]⟩
    · next hzero =>
      have hne : record.dsts ≠ [] := fun hnil => hzero (by rw [hnil]; rfl)
      rw [hread, CostsRecord.store, if_neg hne]
      exact ⟨req', hreq', hrest', rfl⟩
  · rw [turnRounds_of_header hheader, hrounds, hinput, List.length_append]
    simp only [dstRounds]
    omega

/-- A turn that comes to no mark because the stream is not at its end rejects the request. -/
theorem readErr_bad (heof : req.eof = false) (data : GetCostsState) :
    Turn.readErr true req data = .ret true true data := by
  simp [Turn.readErr, requestReadErr, heof]

theorem headerStream_eq
    (hno : ∀ src reverse dstCount req, ¬ Header input src reverse dstCount req) :
    (∀ finished data, getCostsProcess finished { rest := input } data =
      .readErr finished (headerStream input) data) ∧ turnRounds { rest := input } = 1 := by
  rcases h₁ : getPID { rest := input } with ⟨_ | src, req₁⟩
  · simp [getCostsProcess, turnRounds, headerStream, h₁]
  rcases h₂ : getString req₁ with ⟨_ | reverse, req₂⟩
  · simp [getCostsProcess, turnRounds, headerStream, h₁, h₂]
  rcases h₃ : getUnsigned req₂ with ⟨_ | dstCount, req₃⟩
  · simp [getCostsProcess, turnRounds, headerStream, h₁, h₂, h₃]
  · exact absurd ⟨req₁, req₂, h₁, h₂, h₃⟩ (hno src reverse dstCount req₃)

/-- What a turn can find. -/
inductive Finds (input : List Char) : Prop
  | space (h : ∀ c ∈ input, isSpace c = true)
  | cut (h : EndsInside input)
  | bad (hno : ∀ records, ¬ ReadsRecords input records)
      (hturn : ∀ data, ∃ data', getCostsProcess true { rest := input } data = .ret true true data')
      (hrounds : turnRounds { rest := input } ≤ input.length + 1)
  | record (record : CostsRecord) (rest : List Char) (h : ReadsRecord input record rest)

theorem finds (input : List Char) : Finds input := by
  by_cases hspace : ∀ c ∈ input, isSpace c = true
  · exact .space hspace
  have hne : ∃ c ∈ input, isSpace c = false := by simpa using hspace
  by_cases hheader : ∃ src reverse dstCount req, Header input src reverse dstCount req
  swap
  · have hno : ∀ src reverse dstCount req, ¬ Header input src reverse dstCount req := by
      simpa using hheader
    obtain ⟨hturn, hrounds⟩ := headerStream_eq hno
    cases heof : (headerStream input).eof with
    | true => exact .cut (.header hne hno heof)
    | false =>
      refine .bad ?_ (fun data => ⟨data, by rw [hturn, readErr_bad heof]⟩) (by omega)
      rintro _ (h | ⟨⟨req, h, -⟩, -⟩)
      · exact hspace h
      · exact hno _ _ _ _ h
  obtain ⟨src, reverse, dstCount, req, hheader⟩ := hheader
  by_cases hflag : ∃ r, reverse = flagText r
  swap
  · have hinc : reverse ≠ "inc-reverse".toList := fun h => hflag ⟨true, h⟩
    have hnorev : reverse ≠ "no-reverse".toList := fun h => hflag ⟨false, h⟩
    refine .bad ?_ (fun data => ⟨data, ?_⟩) ?_
    · rintro _ (h | ⟨⟨req, h, -⟩, -⟩)
      · exact hspace h
      · exact hflag ⟨_, (hheader.unique h).2.1⟩
    · rw [hheader.turn, entryTurn, if_neg hinc, if_neg hnorev]
    · obtain ⟨req₁, req₂, h₁, h₂, h₃⟩ := hheader.read
      simp only [turnRounds, h₁, h₂, h₃, hinc, hnorev, or_self, if_false]
      omega
  obtain ⟨r, rfl⟩ := hflag
  rcases readsPids_cases dstCount req.rest with ⟨dsts, rest, hdsts, rfl⟩ |
    ⟨dsts, rest, req', hdsts, hlt, hnone⟩
  · exact .record ⟨src, r, dsts⟩ rest ⟨req, hheader, hdsts⟩
  cases heof : req'.eof with
  | true => exact .cut (.dsts hheader hdsts hlt hnone heof)
  | false =>
    obtain ⟨hreq, front, hfront, hinput⟩ := hheader.settled
    have hpos : 0 < front.length := List.length_pos_of_ne_nil hfront
    have hlen := hdsts.length_le
    obtain ⟨n, rfl⟩ : ∃ n, dstCount = dsts.length + (n + 1) := ⟨dstCount - dsts.length - 1, by omega⟩
    obtain ⟨dst', req₂, hreq₂, hrest₂, hread, hrounds⟩ :=
      readDsts_reads hdsts (n + 1) default hreq rfl ∅
    have hget : req₂.getPID = (none, req') := by
      rw [extracts_getPID.settled hreq₂, hrest₂, hnone]
    have herr : requestReadErr true req' = .invalid := by simp [requestReadErr, heof]
    refine .bad ?_ (fun data => ?_) ?_
    · rintro _ (h | ⟨⟨req₃, h, hs⟩, -⟩)
      · exact hspace h
      · obtain ⟨-, -, hcount, rfl⟩ := hheader.unique h
        exact hs.not_none hdsts (by omega) (by rw [hnone])
    · rw [hheader.turn, entryTurn_flagText, readEntry, if_neg (by omega), hread]
      simp only [readDsts, hget, herr]
      exact ⟨_, rfl⟩
    · rw [turnRounds_of_header hheader, hrounds]
      simp only [dstRounds, hget, herr, hinput, List.length_append]
      omega

end Turns

/-! ## Requests -/

section Requests

variable {input : List Char} {data data' : GetCostsState} {req : IStream}

/-- What `GetCostsProcess` makes of a whole body: the data, and whether the request is rejected. -/
def costsResult (input : List Char) (data : GetCostsState) : Option (GetCostsState × Bool) :=
  (roundsConsume (bodyRound getCostsProcess true) input data).result

theorem costsResult_of_mark
    (h : getCostsProcess true { rest := input } data = .mark req data') :
    costsResult input data = costsResult req.rest data' := by
  rw [costsResult, roundsConsume_eq (turns_getCostsProcess.shrinks true), bodyRound, h]
  rfl

theorem costsResult_of_ret {rejected : Bool}
    (h : getCostsProcess true { rest := input } data = .ret true rejected data') :
    costsResult input data = some (data', rejected) := by
  rw [costsResult, roundsConsume_eq (turns_getCostsProcess.shrinks true), bodyRound, h]
  cases rejected <;> rfl

theorem turn_space (h : ∀ c ∈ input, isSpace c = true) (data : GetCostsState) :
    getCostsProcess true { rest := input } data = .ret true false data := by
  have hnone : getPID { rest := input } = (none, { rest := [], eof := true, fail := true }) := by
    rw [getPID, getUnsigned_eq, List.dropWhile_eq_nil_iff.2 h]
    rfl
  simp only [getCostsProcess, hnone]
  rfl

/-- A sequence of records is accepted, and its records are stored one after the other. -/
theorem ReadsRecords.result {records : List CostsRecord} (h : ReadsRecords input records)
    (data : GetCostsState) :
    costsResult input data = some (records.foldl CostsRecord.store data, false) := by
  induction h generalizing data with
  | nil h => exact costsResult_of_ret (turn_space h data)
  | cons h _ ih =>
    obtain ⟨⟨req, -, rfl, hturn⟩, -⟩ := h.turn data
    rw [costsResult_of_mark hturn, ih]
    rfl

/-- A body that ends inside a record is accepted too. -/
theorem EndsInside.result (h : EndsInside input) (data : GetCostsState) :
    ∃ data', costsResult input data = some (data', false) := by
  induction h generalizing data with
  | header hne hno heof =>
    refine ⟨data, costsResult_of_ret ?_⟩
    rw [(headerStream_eq hno).1]
    simp [Turn.readErr, requestReadErr, heof]
  | @dsts input rest src reverse dstCount dsts req req' h hs hlt hno heof =>
    obtain ⟨hreq, -⟩ := h.settled
    obtain ⟨n, rfl⟩ : ∃ n, dstCount = dsts.length + (n + 1) := ⟨dstCount - dsts.length - 1, by omega⟩
    obtain ⟨dst', req₂, hreq₂, hrest₂, hread, -⟩ := readDsts_reads hs (n + 1) default hreq rfl ∅
    have hget : req₂.getPID = (none, req') := by
      rw [extracts_getPID.settled hreq₂, hrest₂, hno]
    have herr : requestReadErr true req' = .ignore := by simp [requestReadErr, heof]
    have hnil : req'.rest = [] := extracts_getPID.none hno heof
    obtain ⟨req₃, dsts', hdone, hrest₃⟩ := readDsts_ignore n dst' heof
      ((dsts.foldl (fun (dsts : StdSet PID) p => dsts.insert p) ∅).insert dst')
    have hturn : getCostsProcess true { rest := input } data =
        .mark req₃ (data.setEntry src reverse dsts') := by
      rw [h.turn, entryTurn_flagText, readEntry, if_neg (by omega), hread]
      simp only [readDsts, hget, herr, hdone]
    rw [costsResult_of_mark hturn, hrest₃, hnil]
    exact ⟨_, costsResult_of_ret (turn_space (by simp) _)⟩
  | record h _ ih =>
    obtain ⟨⟨req, -, rfl, hturn⟩, -⟩ := h.turn data
    rw [costsResult_of_mark hturn]
    exact ih _

/-- Every other body is rejected. -/
theorem costsResult_rejected (hno : ∀ records, ¬ ReadsRecords input records)
    (hcut : ¬ EndsInside input) (data : GetCostsState) :
    ∃ data', costsResult input data = some (data', true) := by
  induction hn : input.length using Nat.strongRecOn generalizing input data with
  | ind n ih =>
    rcases finds input with h | h | ⟨-, hturn, -⟩ | ⟨record, rest, h⟩
    · exact absurd (.nil h) (hno [])
    · exact absurd h hcut
    · obtain ⟨data', hturn⟩ := hturn data
      exact ⟨data', costsResult_of_ret hturn⟩
    · obtain ⟨⟨req, -, rfl, hturn⟩, hrounds⟩ := h.turn data
      rw [costsResult_of_mark hturn]
      refine ih req.rest.length ?_ (fun records hs => hno _ (.cons h hs))
        (fun hs => hcut (.record h hs)) _ rfl
      have hpos : 1 ≤ turnRounds { rest := input } := by
        obtain ⟨req', hheader, -⟩ := h
        rw [turnRounds_of_header hheader]
        omega
      omega

/-- The work on a body that does not end inside a record. -/
theorem costsRounds_le (fuel : Nat) (hreq : req.Settled) (hcut : ¬ EndsInside req.rest)
    (data : GetCostsState) : costsRounds fuel req data ≤ req.rest.length + 1 := by
  have hrounds : turnRounds req = turnRounds { rest := req.rest } := by
    unfold turnRounds
    rw [extracts_getPID.settled hreq]
  induction fuel generalizing req data with
  | zero => exact Nat.zero_le _
  | succ fuel ih =>
    rw [costsRounds, hrounds, turns_getCostsProcess.settled hreq]
    rcases finds req.rest with h | h | ⟨-, hturn, hle⟩ | ⟨record, rest, h⟩
    · rw [turn_space h]
      have hno : ∀ src reverse dstCount req', ¬ Header req.rest src reverse dstCount req' := by
        intro src reverse dstCount req' hheader
        obtain ⟨c, hc, hspace⟩ := hheader.not_space
        exact absurd ((h c hc).symm.trans hspace) (by simp)
      rw [(headerStream_eq hno).2]
      simp
    · exact absurd h hcut
    · obtain ⟨data', hturn⟩ := hturn data
      rw [hturn]
      exact hle
    · obtain ⟨⟨req', hreq', rfl, hturn⟩, hle⟩ := h.turn data
      rw [hturn]
      have := ih hreq' (fun hs => hcut (.record h hs)) (record.store data) (by
        unfold turnRounds
        rw [extracts_getPID.settled hreq'])
      dsimp only
      omega

/-- The records whose data the map holds. -/
def lastRecord (records : List CostsRecord) (src : PID) : Option (Bool × StdSet PID) :=
  (records.reverse.find? (·.src = src)).map fun record => (record.reverse, pidSetOf record.dsts)

theorem store_pids (data : GetCostsState) (record : CostsRecord) (src : PID) :
    (record.store data).pids[src]? =
      if record.src = src then some (record.reverse, pidSetOf record.dsts) else data.pids[src]? := by
  rw [CostsRecord.store]
  split
  · next h =>
    rw [GetCostsState.setEntry, StdMap.get_insert, h]
    by_cases hsrc : record.src = src <;> simp [hsrc, pidSetOf]
  · rw [GetCostsState.setEntry, StdMap.get_insert]
    by_cases hsrc : record.src = src <;> simp [hsrc]

theorem foldl_store_pids (records : List CostsRecord) (data : GetCostsState) (src : PID) :
    (records.foldl CostsRecord.store data).pids[src]? =
      (lastRecord records src).or data.pids[src]? := by
  induction records generalizing data with
  | nil => rfl
  | cons record records ih =>
    rw [List.foldl_cons, ih, store_pids]
    simp only [lastRecord, List.reverse_cons, List.find?_append, Option.map_or]
    by_cases h : record.src = src
    · simp [h]
    · simp [h]

/-- What `GetCostsProcess` owes for a body that comes in these pieces. -/
structure CostsRequestRight (pieces : List (List Char)) : Prop where
  accepts : (receive getCostsProcess {} pieces).rejected = false ↔
    ∃ records, ReadsRecords pieces.flatten records
  pids : ∀ records, ReadsRecords pieces.flatten records → ∀ src : PID,
    (receive getCostsProcess {} pieces).callbackData.pids[src]? = lastRecord records src
  work : costsRounds (pieces.flatten.length + 1) { rest := pieces.flatten } {} ≤
    pieces.flatten.length + 1

/-- Exactly the well-formed requests are accepted, with their last records and in work bounded by the
body, except where the body ends inside a record. -/
theorem costs_requests_accepted_iff (pieces : List (List Char))
    (hpieces : ∀ piece ∈ pieces, piece ≠ []) :
    CostsRequestRight pieces ↔ ¬ EndsInside pieces.flatten := by
  have hresult : costsResult pieces.flatten {} = some
      ((receive getCostsProcess {} pieces).callbackData,
        (receive getCostsProcess {} pieces).rejected) :=
    turns_getCostsProcess.receive_eq_finished (extends_getCostsProcess true) {} pieces hpieces
  constructor
  · intro h hcut
    obtain ⟨data', hdata⟩ := hcut.result {}
    rw [hresult] at hdata
    obtain ⟨records, hrecords⟩ := h.accepts.1 (Prod.mk.inj (Option.some.inj hdata)).2
    exact hcut.not_records records hrecords
  · intro hcut
    refine ⟨⟨fun haccepted => ?_, ?_⟩, ?_, costsRounds_le _ (.inl rfl) hcut {}⟩
    · by_contra hno
      obtain ⟨data', hdata⟩ := costsResult_rejected (fun records h => hno ⟨records, h⟩) hcut {}
      rw [hresult] at hdata
      exact absurd ((Prod.mk.inj (Option.some.inj hdata)).2.symm.trans haccepted) (by simp)
    · rintro ⟨records, hrecords⟩
      have := hrecords.result {}
      rw [hresult] at this
      exact (Prod.mk.inj (Option.some.inj this)).2
    · intro records hrecords src
      have := hrecords.result {}
      rw [hresult] at this
      rw [(Prod.mk.inj (Option.some.inj this)).1, foldl_store_pids]
      simp

/-- Two records, cut inside the second destination of the first one. -/
def twoRecords : List (List Char) :=
  ["1.i.isp inc-reverse 2 2.i.isp 3.i".toList, ".isp\n2.i.isp no-reverse 1 1.i.isp\n".toList]

/-- Both records are read. -/
theorem costs_requests_accepted_iff_two :
    ¬ EndsInside twoRecords.flatten ∧
      (receive getCostsProcess {} twoRecords).rejected = false ∧
      (receive getCostsProcess {} twoRecords).callbackData.pids[(⟨"isp", 1, false⟩ : PID)]? =
        some (true, pidSetOf [⟨"isp", 2, false⟩, ⟨"isp", 3, false⟩]) ∧
      (receive getCostsProcess {} twoRecords).callbackData.pids[(⟨"isp", 2, false⟩ : PID)]? =
        some (false, pidSetOf [⟨"isp", 1, false⟩]) := by
  have hflatten : twoRecords.flatten =
      "1.i.isp inc-reverse 2 2.i.isp 3.i.isp\n2.i.isp no-reverse 1 1.i.isp\n".toList := rfl
  have hfirst : ReadsRecord twoRecords.flatten
      ⟨⟨"isp", 1, false⟩, true, [⟨"isp", 2, false⟩, ⟨"isp", 3, false⟩]⟩
      "\n2.i.isp no-reverse 1 1.i.isp\n".toList := by
    rw [hflatten]
    have hheader : Header "1.i.isp inc-reverse 2 2.i.isp 3.i.isp\n2.i.isp no-reverse 1 1.i.isp\n".toList
        ⟨"isp", 1, false⟩ (flagText true) 2
        { rest := " 2.i.isp 3.i.isp\n2.i.isp no-reverse 1 1.i.isp\n".toList } :=
      ⟨_, _, rfl, rfl, rfl⟩
    have hlast : getPID { rest := " 3.i.isp\n2.i.isp no-reverse 1 1.i.isp\n".toList } =
        (some ⟨"isp", 3, false⟩, { rest := "\n2.i.isp no-reverse 1 1.i.isp\n".toList }) := rfl
    exact ⟨_, hheader, .cons rfl (.cons hlast .nil)⟩
  have hsecond : ReadsRecord "\n2.i.isp no-reverse 1 1.i.isp\n".toList
      ⟨⟨"isp", 2, false⟩, false, [⟨"isp", 1, false⟩]⟩ ['\n'] := by
    have hheader : Header "\n2.i.isp no-reverse 1 1.i.isp\n".toList ⟨"isp", 2, false⟩
        (flagText false) 1 { rest := " 1.i.isp\n".toList } := ⟨_, _, rfl, rfl, rfl⟩
    have hlast : getPID { rest := " 1.i.isp\n".toList } =
        (some ⟨"isp", 1, false⟩, { rest := ['\n'] }) := rfl
    exact ⟨_, hheader, .cons hlast .nil⟩
  have hrecords := ReadsRecords.cons hfirst (.cons hsecond (.nil (by decide)))
  have hcut : ¬ EndsInside twoRecords.flatten := fun h => h.not_records _ hrecords
  obtain ⟨haccepts, hpids, -⟩ := (costs_requests_accepted_iff twoRecords (by decide)).2 hcut
  exact ⟨hcut, haccepts.2 ⟨_, hrecords⟩, hpids _ hrecords _, hpids _ hrecords _⟩

/-- A body that breaks off behind the second of two destinations announced as three is accepted. -/
theorem truncated_costs_request_accepted :
    ¬ CostsRequestRight ["1.i.isp no-reverse 3 2.i.isp 3.i.isp\n".toList] := by
  intro h
  have hheader : Header "1.i.isp no-reverse 3 2.i.isp 3.i.isp\n".toList ⟨"isp", 1, false⟩
      (flagText false) 3 { rest := " 2.i.isp 3.i.isp\n".toList } := ⟨_, _, rfl, rfl, rfl⟩
  have hcut : EndsInside ["1.i.isp no-reverse 3 2.i.isp 3.i.isp\n".toList].flatten :=
    .dsts hheader (.cons (p := ⟨"isp", 2, false⟩) rfl (.cons (p := ⟨"isp", 3, false⟩) rfl .nil))
      (by decide) rfl rfl
  obtain ⟨records, hrecords⟩ := h.accepts.1 (by decide +kernel)
  exact hcut.not_records records hrecords

end Requests

end Alto.Portal
