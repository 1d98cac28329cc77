import Alto.Portal.RequestProcess
import Alto.Verify.IStream

/-!
# Request bodies do not depend on how they are cut into pieces

The turns of a process callback are the rounds of a consumer that is passed the body up to its last
white space (`Lib.cutConsume`). A turn that has read an entry reads the same entry when more of the
body has come, since every extraction ends in front of white space; the entry of `GetCostsProcess`
that is read a second time overwrites what the first try has left.
-/

namespace Alto.Server

open Lib

/-! ## The server as a consumer -/

section Server

variable {D : Type} {turn : Bool → IStream → D → Turn D}

/-- The data behind a turn. -/
def Turn.data : Turn D → D
  | .mark _ data | .ret _ _ data => data

/-- A turn as a round. -/
def Turn.toRound : Turn D → Round Char D
  | .mark req data => .done req.rest data
  | .ret _ true data => .error data
  | .ret true false data => .finish data
  | .ret false false data => .stop data

/-- A round on what is left of the body. -/
def bodyRound (turn : Bool → IStream → D → Turn D) (finished : Bool) (input : List Char) (data : D) :
    Round Char D :=
  (turn finished { rest := input } data).toRound

theorem round_ne_undefined {finished : Bool} {input : List Char} {data : D} :
    bodyRound turn finished input data ≠ .undefined := by
  unfold bodyRound Turn.toRound
  split <;> nofun

/-- What the turns of a callback have in common. -/
structure Turns (turn : Bool → IStream → D → Turn D) : Prop where
  settled : ∀ {finished req data}, req.Settled →
    turn finished req data = turn finished { rest := req.rest } data
  mark : ∀ {finished input data req data'}, turn finished { rest := input } data = .mark req data' →
    req.Settled ∧ ∃ front, front ≠ [] ∧ input = front ++ req.rest
  close : ∀ data, turn true { rest := [] } data = .ret true false data
  start : ∀ data, ∃ result, turn false { rest := [] } data = .ret result false data
  more : Extends (EndsSep isSpace) (bodyRound turn false) (bodyRound turn false)

theorem Turns.shrinks (ht : Turns turn) (finished : Bool) : Shrinks (bodyRound turn finished) := by
  intro input data rest data' h
  unfold bodyRound Turn.toRound at h
  split at h
  · next hmark =>
    cases h
    obtain ⟨-, front, hne, hinput⟩ := ht.mark hmark
    have hpos : 0 < front.length := List.length_pos_of_ne_nil hne
    rw [hinput, List.length_append]
    omega
  all_goals cases h

/-- The loop of a callback comes to what its rounds come to. -/
theorem Turns.processLoop_eq (ht : Turns turn) (finished : Bool) {bytes : List Char} (fuel : Nat)
    {req : IStream} (hreq : req.Settled) (hsuffix : req.rest <:+ bytes) (data : D) :
    match rounds (bodyRound turn finished) fuel req.rest data with
    | .ok rest data' => ∃ result mark,
        processLoop (turn finished) bytes.length fuel req (bytes.length - req.rest.length) data =
          ⟨result, false, data', mark⟩ ∧ mark ≤ bytes.length ∧
        bytes.drop (if result then bytes.length else mark) = rest
    | .error data' => ∃ result mark,
        processLoop (turn finished) bytes.length fuel req (bytes.length - req.rest.length) data =
          ⟨result, true, data', mark⟩
    | .undefined => False := by
  have hdrop : bytes.drop (bytes.length - req.rest.length) = req.rest :=
    (List.suffix_iff_eq_drop.1 hsuffix).symm
  induction fuel generalizing req data with
  | zero => exact ⟨false, _, rfl, Nat.sub_le _ _, hdrop⟩
  | succ fuel ih =>
    rw [rounds, processLoop, ht.settled hreq, bodyRound]
    cases hturn : turn finished { rest := req.rest } data with
    | mark req' data' =>
      obtain ⟨hreq', front, -, hinput⟩ := ht.mark hturn
      have hsuffix' : req'.rest <:+ bytes := .trans ⟨front, hinput.symm⟩ hsuffix
      exact ih hreq' hsuffix' data' (List.suffix_iff_eq_drop.1 hsuffix').symm
    | ret result rejected data' =>
      cases result <;> cases rejected
      · exact ⟨false, _, rfl, Nat.sub_le _ _, hdrop⟩
      · exact ⟨false, _, rfl⟩
      · exact ⟨true, _, rfl, Nat.sub_le _ _, List.drop_length⟩
      · exact ⟨true, _, rfl⟩

/-- The request between two calls, as a consumer between two chunks. -/
def RESTRequestState.feed (state : RESTRequestState D) : Feed Char D :=
  if state.rejected then .failed state.callbackData else .more state.buffer state.callbackData

/-- The part of the buffer that is passed to the callback, and the rest. -/
theorem exists_getDatalen (turn : Bool → IStream → D → Turn D) (finished : Bool)
    (buffer : List Char) (data : D) :
    ∃ bytes tail, buffer = bytes ++ tail ∧ getDatalen finished buffer = bytes.length ∧
      cutConsume isSpace (bodyRound turn) finished buffer data =
        match roundsConsume (bodyRound turn finished) bytes data with
        | .ok rest data => .ok (rest ++ tail) data
        | .error data => .error data
        | .undefined => .undefined := by
  cases finished with
  | true =>
    refine ⟨buffer, buffer.drop buffer.length, by simp, rfl, ?_⟩
    simp only [cutConsume, if_true]
    cases roundsConsume (bodyRound turn true) buffer data <;> rfl
  | false =>
    refine ⟨_, _, (rdropWhile_append_drop (fun c => !isSpace c) buffer).symm, rfl, ?_⟩
    simp only [cutConsume, Bool.false_eq_true, if_false]
    cases roundsConsume (bodyRound turn false) (buffer.rdropWhile fun c => !isSpace c) data <;> rfl

/-- One call of the callback. -/
theorem Turns.processRequestData_feed (ht : Turns turn) (state : RESTRequestState D) :
    (cutConsume isSpace (bodyRound turn) state.requestFinished state.buffer state.callbackData).next =
      some (processRequestData turn state).feed := by
  obtain ⟨data, buffer, finished, rejected⟩ := state
  obtain ⟨bytes, tail, rfl, hlen, hcut⟩ := exists_getDatalen turn finished buffer data
  have hreq : IStream.Settled { rest := bytes } := .inl rfl
  have hloop := ht.processLoop_eq finished (bytes.length + 1) hreq List.suffix_rfl data
  rw [Nat.sub_self] at hloop
  simp only [hcut, processRequestData, hlen, List.take_left, process, roundsConsume]
  split at hloop
  · next rest data' hr =>
    obtain ⟨result, mark, hprocess, hmark, hrest⟩ := hloop
    have hle : (if result then bytes.length else mark) ≤ bytes.length := by
      split
      · exact le_rfl
      · exact hmark
    simp only [show rounds _ _ bytes data = _ from hr, hprocess, Consumed.next,
      RESTRequestState.feed, Bool.false_eq_true, if_false, List.drop_append_of_le_length hle, hrest]
  · next data' hr =>
    obtain ⟨result, mark, hprocess⟩ := hloop
    simp only [show rounds _ _ bytes data = _ from hr, hprocess]
    rfl
  · exact absurd hloop id

/-- A piece of the body is a chunk. -/
theorem Turns.addData_feed (ht : Turns turn) {state : RESTRequestState D}
    (hfinished : state.requestFinished = false) (piece : List Char) :
    state.feed.chunk (cutConsume isSpace (bodyRound turn)) piece =
      some (addData turn state piece).feed := by
  obtain ⟨data, buffer, finished, rejected⟩ := state
  cases hfinished
  cases rejected with
  | true => rfl
  | false => exact ht.processRequestData_feed { callbackData := data, buffer := buffer ++ piece }

theorem addData_requestFinished (state : RESTRequestState D) (piece : List Char) :
    (addData turn state piece).requestFinished = state.requestFinished := by
  unfold addData
  split <;> rfl

/-- The end of the request. -/
theorem Turns.finish_feed (ht : Turns turn) (state : RESTRequestState D) :
    state.feed.close (cutConsume isSpace (bodyRound turn)) =
      some ((accessHandler turn state []).callbackData, (accessHandler turn state []).rejected) := by
  obtain ⟨data, buffer, finished, rejected⟩ := state
  cases rejected with
  | true =>
    have hclose : bodyRound turn true [] data = .finish data := by
      rw [bodyRound, ht.close]
      rfl
    simp [RESTRequestState.feed, Feed.close, cutConsume, roundsConsume_eq (ht.shrinks true),
      hclose, Consumed.resultFailed, accessHandler, addData]
  | false =>
    have hcall := ht.processRequestData_feed
      { callbackData := data, buffer := buffer ++ [], requestFinished := true }
    have hend : accessHandler turn ⟨data, buffer, finished, false⟩ [] = processRequestData turn
        { callbackData := data, buffer := buffer ++ [], requestFinished := true } := rfl
    rw [hend]
    simp only [List.append_nil] at hcall ⊢
    simp only [RESTRequestState.feed, Bool.false_eq_true, if_false, Feed.close] at hcall ⊢
    generalize processRequestData turn
      { callbackData := data, buffer := buffer, requestFinished := true } = state at hcall ⊢
    cases hc : cutConsume isSpace (bodyRound turn) true buffer data with
    | ok rest data' =>
      rw [hc] at hcall
      cases hrejected : state.rejected with
      | true => simp [Consumed.next, hrejected] at hcall
      | false =>
        simp only [Consumed.next, hrejected, Bool.false_eq_true, if_false, Option.some.injEq,
          Feed.more.injEq] at hcall
        rw [hcall.2]
        rfl
    | error data' =>
      rw [hc] at hcall
      cases hrejected : state.rejected with
      | true =>
        simp only [Consumed.next, hrejected, if_true, Option.some.injEq,
          Feed.failed.injEq] at hcall
        rw [hcall]
        rfl
      | false => simp [Consumed.next, hrejected] at hcall
    | undefined =>
      rw [hc] at hcall
      cases hcall

/-- The pieces of a body, one after the other. -/
theorem Turns.foldl_accessHandler (ht : Turns turn) {pieces : List (List Char)}
    (hpieces : ∀ piece ∈ pieces, piece ≠ []) {state : RESTRequestState D}
    (hfinished : state.requestFinished = false) :
    Feed.all (cutConsume isSpace (bodyRound turn)) state.feed pieces =
      some (((pieces ++ [[]]).foldl (accessHandler turn) state).callbackData,
        ((pieces ++ [[]]).foldl (accessHandler turn) state).rejected) := by
  induction pieces generalizing state with
  | nil => exact ht.finish_feed state
  | cons piece pieces ih =>
    have hpiece : accessHandler turn state piece = addData turn state piece := by
      simp [accessHandler, hpieces piece]
    rw [Feed.all, ht.addData_feed hfinished, Option.bind_some, List.cons_append, List.foldl_cons,
      hpiece]
    apply ih
    · exact fun x hx => hpieces x (List.mem_cons_of_mem _ hx)
    · rw [addData_requestFinished, hfinished]

/-- Whatever pieces a body comes in, the result is that of the whole body. -/
theorem Turns.receive_eq (ht : Turns turn) (data : D) (pieces : List (List Char))
    (hpieces : ∀ piece ∈ pieces, piece ≠ []) :
    settle (cutConsume isSpace (bodyRound turn)) pieces.flatten data =
      some ((receive turn data pieces).callbackData, (receive turn data pieces).rejected) := by
  have hstart : cutConsume isSpace (bodyRound turn) false [] data = .ok [] data := by
    obtain ⟨result, hturn⟩ := ht.start data
    cases result <;>
      simp [cutConsume, roundsConsume_eq (ht.shrinks false), bodyRound, hturn, Turn.toRound]
  have hfirst : (addData turn { callbackData := data } []).feed = .more [] data := by
    have hchunk : (RESTRequestState.feed { callbackData := data }).chunk
        (cutConsume isSpace (bodyRound turn)) [] = some (.more [] data) := by
      show (cutConsume isSpace (bodyRound turn) false [] data).next = _
      rw [hstart]
      rfl
    rw [ht.addData_feed rfl] at hchunk
    exact Option.some.inj hchunk
  rw [receive, ← ht.foldl_accessHandler hpieces, hfirst]
  · exact ((cutConsume_continues (ht.shrinks false) ht.more).resumable.feedAll_flatten hstart
      pieces).symm
  · exact addData_requestFinished _ _

/-- Where early calls read what the last one reads too, the result is that of a single call for the
whole body. -/
theorem Turns.receive_eq_finished (ht : Turns turn)
    (he : Extends (EndsSep isSpace) (bodyRound turn false) (bodyRound turn true)) (data : D)
    (pieces : List (List Char)) (hpieces : ∀ piece ∈ pieces, piece ≠ []) :
    (roundsConsume (bodyRound turn true) pieces.flatten data).result =
      some ((receive turn data pieces).callbackData, (receive turn data pieces).rejected) := by
  rw [← ht.receive_eq data pieces hpieces, settle_cutConsume ht.shrinks (fun s => ?_) he]
  rw [bodyRound, ht.close]
  rfl

end Server

end Alto.Server

namespace Alto.Portal

open Lib Server IStream

/-! ## Lists -/

theorem readErr_false {D : Type} (req : IStream) (data : D) :
    Turn.readErr false req data = .ret false false data := by
  cases req with
  | mk rest eof fail => cases eof <;> rfl

theorem readErr_ne_mark {D : Type} {finished : Bool} {req req' : IStream} {data data' : D} :
    Turn.readErr finished req data ≠ .mark req' data' := by
  unfold Turn.readErr
  split <;> nofun

section List

variable {T D : Type} {get : IStream → Option T × IStream} {store : D → T → D}

theorem round_listTurn (get : IStream → Option T × IStream) (store : D → T → D)
    (input : List Char) (data : D) :
    bodyRound (listTurn get store) false input data =
      match get { rest := input } with
      | (some x, req) => .done req.rest (store data x)
      | (none, _) => .stop data := by
  rw [bodyRound, listTurn]
  cases get { rest := input } with
  | mk x req =>
    cases x with
    | some x => rfl
    | none =>
      simp only [readErr_false]
      rfl

/-- The callbacks that read a list. -/
theorem turns_listTurn (hget : Extracts get) : Turns (listTurn get store) where
  settled {finished req data} h := by
    unfold listTurn
    rw [hget.settled h]
  mark {finished input data req data'} h := by
    rw [listTurn] at h
    split at h
    · next x req' hx =>
      cases h
      obtain ⟨-, front, token, hinput, htoken⟩ := hget.some hx
      refine ⟨hget.settled_some hx, front ++ token, by simp [htoken.ne_nil], ?_⟩
      rw [hinput, List.append_assoc]
    · exact absurd h readErr_ne_mark
  close data := by
    rw [listTurn, hget.nil]
    rfl
  start data := by
    rw [listTurn, hget.nil]
    exact ⟨false, rfl⟩
  more := by
    apply Extends.of_cases
    intro input data hinput
    rcases hx : get { rest := input } with ⟨_ | x, req⟩
    · refine .inr (.inr ⟨data, ?_, fun _ => rfl⟩)
      simp only [round_listTurn, hx]
    · refine .inl ⟨req.rest, store data x, (hget.endsSep hx hinput).2, ?_, fun more => ?_⟩
      · simp only [round_listTurn, hx]
      · rw [round_listTurn, hget.more hx hinput more]

end List

/-! ## JSON requests -/

theorem round_filterProcess (finished : Bool) (input filter : List Char) :
    bodyRound filterProcess finished input filter =
      match getString { rest := input } with
      | (some parts, req) => .done req.rest (filter ++ parts)
      | (none, _) => .finish filter := by
  rw [bodyRound, filterProcess]
  cases getString { rest := input } with
  | mk x req => cases x <;> rfl

/-- A later call, which may see the end of the body, reads the same parts. -/
theorem extends_filterProcess (finished : Bool) :
    Extends (EndsSep isSpace) (bodyRound filterProcess false)
      (bodyRound filterProcess finished) := by
  constructor
  · intro input filter rest filter' hinput h
    rw [round_filterProcess] at h
    split at h
    · next parts req hx =>
      cases h
      refine ⟨(extracts_getString.endsSep hx hinput).2, fun more => ?_⟩
      rw [round_filterProcess, extracts_getString.more hx hinput more]
    · cases h
  · intro input filter filter' _ h
    rw [round_filterProcess] at h
    split at h <;> cases h
  · intro input filter filter' _ h
    refine ⟨endsSep_nil, fun more => ?_⟩
    rw [round_filterProcess] at h
    split at h
    · cases h
    · next req hx =>
      cases h
      -- only white space is left, and the next call skips it
      have hspace : input.dropWhile isSpace = [] := (getString_eq_none.1 hx).1
      have hskip : getString { rest := input ++ more } = getString { rest := more } := by
        rw [getString, getString, sentry_eq, sentry_eq,
          List.dropWhile_append_of_pos (List.dropWhile_eq_nil_iff.1 hspace)]
      have hshrinks : Shrinks (bodyRound filterProcess finished) := by
        intro input filter rest filter' h
        rw [round_filterProcess] at h
        split at h
        · next hx =>
          cases h
          exact extracts_getString.length_lt hx
        · cases h
      rw [roundsConsume_eq hshrinks, roundsConsume_eq hshrinks, round_filterProcess,
        round_filterProcess, hskip]
      cases getString { rest := more } with
      | mk x req => cases x <;> rfl
  · intro input filter filter' _ h
    rw [round_filterProcess] at h
    split at h <;> cases h
  · exact fun _ h => absurd h round_ne_undefined

theorem turns_filterProcess : Turns filterProcess where
  settled {finished req filter} h := by
    unfold filterProcess
    rw [extracts_getString.settled h]
  mark {finished input filter req filter'} h := by
    rw [filterProcess] at h
    split at h
    · next parts req' hx =>
      cases h
      obtain ⟨-, front, token, hinput, htoken⟩ := extracts_getString.some hx
      refine ⟨extracts_getString.settled_some hx, front ++ token, by simp [htoken.ne_nil], ?_⟩
      rw [hinput, List.append_assoc]
    · cases h
  close filter := rfl
  start filter := ⟨true, rfl⟩
  more := extends_filterProcess false

/-! ## Costs -/

/-- The part of an entry up to its number of destinations has been read. -/
structure Header (input : List Char) (src : PID) (reverse : List Char) (dstCount : Nat)
    (req : IStream) : Prop where
  read : ∃ req₁ req₂, getPID { rest := input } = (some src, req₁) ∧
    getString req₁ = (some reverse, req₂) ∧ getUnsigned req₂ = (some dstCount, req)

/-- The turn of the loop behind the header. -/
def entryTurn (finished : Bool) (src : PID) (reverse : List Char) (dstCount : Nat) (req : IStream)
    (data : GetCostsState) : Turn GetCostsState :=
  if reverse = "inc-reverse".toList then readEntry finished src true dstCount req data
  else if reverse = "no-reverse".toList then readEntry finished src false dstCount req data
  else .ret true true data

section Costs

variable {finished : Bool} {input reverse : List Char} {src : PID} {dstCount : Nat}
  {req req' : IStream} {data data' : GetCostsState}

theorem getCostsProcess_cases (input : List Char) :
    (∃ src reverse dstCount req, Header input src reverse dstCount req) ∨
      ∃ req, ∀ finished data,
        getCostsProcess finished { rest := input } data = .readErr finished req data := by
  rcases h₁ : getPID { rest := input } with ⟨_ | src, req₁⟩
  · refine .inr ⟨req₁.getString.2.getUnsigned.2, fun _ _ => ?_⟩
    simp only [getCostsProcess, h₁]
  rcases h₂ : getString req₁ with ⟨_ | reverse, req₂⟩
  · refine .inr ⟨req₂.getUnsigned.2, fun _ _ => ?_⟩
    simp only [getCostsProcess, h₁, h₂]
  rcases h₃ : getUnsigned req₂ with ⟨_ | dstCount, req₃⟩
  · refine .inr ⟨req₃, fun _ _ => ?_⟩
    simp only [getCostsProcess, h₁, h₂, h₃]
  exact .inl ⟨src, reverse, dstCount, req₃, req₁, req₂, h₁, h₂, h₃⟩

theorem Header.turn (h : Header input src reverse dstCount req) (finished : Bool)
    (data : GetCostsState) : getCostsProcess finished { rest := input } data =
      entryTurn finished src reverse dstCount req data := by
  obtain ⟨req₁, req₂, h₁, h₂, h₃⟩ := h.read
  simp only [getCostsProcess, h₁, h₂, h₃]
  rfl

theorem Header.settled (h : Header input src reverse dstCount req) :
    req.Settled ∧ ∃ front, front ≠ [] ∧ input = front ++ req.rest := by
  obtain ⟨req₁, req₂, h₁, h₂, h₃⟩ := h.read
  obtain ⟨-, front₁, token₁, hinput, htoken⟩ := extracts_getPID.some h₁
  rw [extracts_getString.settled (extracts_getPID.settled_some h₁)] at h₂
  obtain ⟨-, front₂, token₂, hrest₁, -⟩ := extracts_getString.some h₂
  rw [extracts_getUnsigned.settled (extracts_getString.settled_some h₂)] at h₃
  obtain ⟨-, front₃, token₃, hrest₂, -⟩ := extracts_getUnsigned.some h₃
  refine ⟨extracts_getUnsigned.settled_some h₃,
    front₁ ++ token₁ ++ (front₂ ++ token₂ ++ (front₃ ++ token₃)), ?_, ?_⟩
  · simp [htoken.ne_nil]
  · rw [hinput, hrest₁, hrest₂]
    simp only [List.append_assoc]

/-- A header in front of white space is the same whatever follows. -/
theorem Header.more (h : Header input src reverse dstCount req) (hinput : EndsSep isSpace input) :
    req = { rest := req.rest } ∧ EndsSep isSpace req.rest ∧
      ∀ more, Header (input ++ more) src reverse dstCount { rest := req.rest ++ more } := by
  obtain ⟨req₁, req₂, h₁, h₂, h₃⟩ := h.read
  obtain ⟨heq₁, hends₁⟩ := extracts_getPID.endsSep h₁ hinput
  rw [heq₁] at h₂
  obtain ⟨heq₂, hends₂⟩ := extracts_getString.endsSep h₂ hends₁
  rw [heq₂] at h₃
  obtain ⟨heq₃, hends₃⟩ := extracts_getUnsigned.endsSep h₃ hends₂
  exact ⟨heq₃, hends₃, fun more => ⟨_, _, extracts_getPID.more h₁ hinput more,
    extracts_getString.more h₂ hends₁ more, extracts_getUnsigned.more h₃ hends₂ more⟩⟩

/-- The stream behind the destinations. -/
theorem readDsts_settled {n : Nat} {dst : PID} {dsts dsts' : StdSet PID} (hreq : req.Settled)
    (h : readDsts finished n dst req dsts = .done req' dsts') :
    req'.Settled ∧ req'.rest <:+ req.rest := by
  induction n generalizing dst req dsts with
  | zero =>
    cases h
    exact ⟨hreq, List.suffix_rfl⟩
  | succ n ih =>
    rw [readDsts, extracts_getPID.settled hreq] at h
    split at h
    · next dst' req₁ hdst =>
      obtain ⟨-, front, token, hrest, -⟩ := extracts_getPID.some hdst
      obtain ⟨hsettled, hsuffix⟩ := ih (extracts_getPID.settled_some hdst) h
      refine ⟨hsettled, hsuffix.trans ⟨front ++ token, ?_⟩⟩
      rw [List.append_assoc, ← hrest]
    · next req₁ hnone =>
      split at h
      · next herr =>
        -- the macro goes on only at the end of the file
        have heof : req₁.eof = true := by
          unfold requestReadErr at herr
          split at herr
          · assumption
          · split at herr <;> cases herr
        have hnil := extracts_getPID.none hnone heof
        obtain ⟨hsettled, hsuffix⟩ := ih (.inr ⟨heof, hnil⟩) h
        refine ⟨hsettled, ?_⟩
        rw [hnil, List.suffix_nil] at hsuffix
        rw [hsuffix]
        exact List.nil_suffix
      · cases h
      · cases h

/-- Without the end of the body, the destinations are all read or the callback waits. -/
theorem readDsts_more (n : Nat) (dst : PID) (dsts : StdSet PID) {rest : List Char}
    (hrest : EndsSep isSpace rest) :
    (∃ rest' dsts', EndsSep isSpace rest' ∧ ∀ finished more,
      readDsts finished n dst { rest := rest ++ more } dsts =
        .done { rest := rest' ++ more } dsts') ∨
      ∃ dsts', readDsts false n dst { rest } dsts = .more dsts' := by
  induction n generalizing dst rest dsts with
  | zero => exact .inl ⟨rest, dsts, hrest, fun _ _ => rfl⟩
  | succ n ih =>
    rcases hdst : getPID { rest } with ⟨_ | dst', req⟩
    · refine .inr ⟨dsts, ?_⟩
      have herr : requestReadErr false req = .more := by
        unfold requestReadErr
        split <;> rfl
      simp only [readDsts, hdst, herr]
    · obtain ⟨heq, hends⟩ := extracts_getPID.endsSep hdst hrest
      rcases ih dst' (dsts.insert dst') hends with ⟨rest', dsts', hends', hdone⟩ | ⟨dsts', hwait⟩
      · refine .inl ⟨rest', dsts', hends', fun finished more => ?_⟩
        rw [readDsts, extracts_getPID.more hdst hrest more]
        exact hdone finished more
      · refine .inr ⟨dsts', ?_⟩
        rw [readDsts, hdst, heq]
        exact hwait

theorem setEntry_setEntry (data : GetCostsState) (src : PID) (reverse reverse' : Bool)
    (dsts dsts' : StdSet PID) :
    (data.setEntry src reverse dsts).setEntry src reverse' dsts' =
      data.setEntry src reverse' dsts' := by
  simp only [GetCostsState.setEntry, GetCostsState.mk.injEq, and_true]
  apply StdMap.ext_get
  intro a
  simp only [StdMap.get_insert]
  split <;> rfl

/-- What an entry has left behind makes no difference when it is read again. -/
theorem readEntry_again (hcount : dstCount ≠ 0) (finished reverse : Bool) (dsts : StdSet PID)
    (req : IStream) : readEntry finished src reverse dstCount req (data.setEntry src reverse dsts) =
      readEntry finished src reverse dstCount req data := by
  simp only [readEntry, if_neg hcount, setEntry_setEntry]

theorem readEntry_settled {reverse : Bool} (hreq : req.Settled)
    (h : readEntry finished src reverse dstCount req data = .mark req' data') :
    req'.Settled ∧ req'.rest <:+ req.rest := by
  unfold readEntry at h
  split at h
  · cases h
    exact ⟨hreq, List.suffix_rfl⟩
  · split at h
    · next hdsts =>
      cases h
      exact readDsts_settled hreq hdsts
    · cases h
    · cases h

/-- An entry without the end of the body. -/
theorem readEntry_more {reverse : Bool} {rest : List Char} (hrest : EndsSep isSpace rest) :
    (∃ rest' data', EndsSep isSpace rest' ∧ ∀ finished more,
      readEntry finished src reverse dstCount { rest := rest ++ more } data =
        .mark { rest := rest' ++ more } data') ∨
      ∃ data', readEntry false src reverse dstCount { rest } data = .ret false false data' ∧
        ∀ finished req, readEntry finished src reverse dstCount req data' =
          readEntry finished src reverse dstCount req data := by
  by_cases hcount : dstCount = 0
  · refine .inl ⟨rest, { data.setEntry src reverse ∅ with needAll := true }, hrest,
      fun finished more => ?_⟩
    simp only [readEntry, if_pos hcount]
  · rcases readDsts_more dstCount default ∅ hrest with ⟨rest', dsts, hends, hdone⟩ | ⟨dsts, hwait⟩
    · refine .inl ⟨rest', data.setEntry src reverse dsts, hends, fun finished more => ?_⟩
      simp only [readEntry, if_neg hcount, hdone finished more]
    · refine .inr ⟨data.setEntry src reverse dsts, ?_,
        fun finished => readEntry_again hcount finished reverse dsts⟩
      simp only [readEntry, if_neg hcount, hwait]

/-- An entry without the end of the body, with its reverse flag. -/
theorem entryTurn_more {rest : List Char} (hrest : EndsSep isSpace rest) :
    (∃ rest' data', EndsSep isSpace rest' ∧ ∀ finished more,
      entryTurn finished src reverse dstCount { rest := rest ++ more } data =
        .mark { rest := rest' ++ more } data') ∨
      (∀ finished req, entryTurn finished src reverse dstCount req data = .ret true true data) ∨
      ∃ data', entryTurn false src reverse dstCount { rest } data = .ret false false data' ∧
        ∀ finished req, entryTurn finished src reverse dstCount req data' =
          entryTurn finished src reverse dstCount req data := by
  unfold entryTurn
  split
  · rcases readEntry_more hrest with h | h
    · exact .inl h
    · exact .inr (.inr h)
  · split
    · rcases readEntry_more hrest with h | h
      · exact .inl h
      · exact .inr (.inr h)
    · exact .inr (.inl fun _ _ => rfl)

/-- A later call, which may see the end of the body, reads the same entries. -/
theorem extends_getCostsProcess (finished : Bool) :
    Extends (EndsSep isSpace) (bodyRound getCostsProcess false)
      (bodyRound getCostsProcess finished) := by
  apply Extends.of_cases
  intro input data hinput
  rcases getCostsProcess_cases input with ⟨src, reverse, dstCount, req, hheader⟩ | ⟨req, herr⟩
  · obtain ⟨hreq, hends, hmore⟩ := hheader.more hinput
    have hround : ∀ finished more data, bodyRound getCostsProcess finished (input ++ more) data =
        (entryTurn finished src reverse dstCount { rest := req.rest ++ more } data).toRound := by
      intro finished more data
      rw [bodyRound, (hmore more).turn]
    have hround' : bodyRound getCostsProcess false input data =
        (entryTurn false src reverse dstCount { rest := req.rest } data).toRound := by
      rw [bodyRound, hheader.turn, ← hreq]
    rcases entryTurn_more hends with ⟨rest, data', hrest, hmark⟩ | herror | ⟨data', hwait, hagain⟩
    · refine .inl ⟨rest, data', hrest, ?_, fun more => ?_⟩
      · have hnil := hmark false []
        rw [List.append_nil, List.append_nil] at hnil
        rw [hround', hnil]
        rfl
      · rw [hround, hmark]
        rfl
    · refine .inr (.inl ⟨data, ?_, fun more => ?_⟩)
      · rw [hround', herror]
        rfl
      · rw [hround, herror]
        rfl
    · refine .inr (.inr ⟨data', ?_, fun more => ?_⟩)
      · rw [hround', hwait]
        rfl
      · rw [hround, hround, hagain]
  · refine .inr (.inr ⟨data, ?_, fun _ => rfl⟩)
    rw [bodyRound, herr, readErr_false]
    rfl

theorem turns_getCostsProcess : Turns getCostsProcess where
  settled {finished req data} h := by
    unfold getCostsProcess
    rw [extracts_getPID.settled h]
  mark {finished input data req data'} h := by
    rcases getCostsProcess_cases input with ⟨src, reverse, dstCount, req₁, hheader⟩ | ⟨req₁, herr⟩
    · rw [hheader.turn] at h
      obtain ⟨hreq, front, hne, hinput⟩ := hheader.settled
      have hentry : req.Settled ∧ req.rest <:+ req₁.rest := by
        unfold entryTurn at h
        split at h
        · exact readEntry_settled hreq h
        · split at h
          · exact readEntry_settled hreq h
          · cases h
      obtain ⟨hsettled, front', hrest⟩ := hentry
      refine ⟨hsettled, front ++ front', by simp [hne], ?_⟩
      rw [hinput, ← hrest, List.append_assoc]
    · rw [herr] at h
      exact absurd h readErr_ne_mark
  close data := rfl
  start data := ⟨false, rfl⟩
  more := extends_getCostsProcess false

end Costs

/-! ## All callbacks -/

/-- A process callback with the members that it changes and their initial values. -/
structure RequestHandler where
  D : Type
  init : D
  process : Bool → IStream → D → Turn D

/-- What is stored of a request whose body comes in these pieces, and whether it is rejected. -/
def RequestHandler.receive (handler : RequestHandler) (pieces : List (List Char)) :
    handler.D × Bool :=
  ((Server.receive handler.process handler.init pieces).callbackData,
    (Server.receive handler.process handler.init pieces).rejected)

/-- The handlers that read a body. -/
def requestHandlers (net : AddressText) : List RequestHandler :=
  [⟨_, [], getPIDsProcess net⟩,
    ⟨_, [], getPIDMapProcess⟩,
    ⟨_, {}, getCostsProcess⟩,
    ⟨_, [], getNetMapFilteredProcess⟩,
    ⟨_, [], getCostMapFilteredProcess⟩,
    ⟨_, [], getEndPointsPropertyProcess⟩,
    ⟨_, [], getEndPointsCostProcess⟩]

theorem turns_requestHandlers (net : AddressText) :
    ∀ handler ∈ requestHandlers net, Turns handler.process := by
  simp only [requestHandlers, List.forall_mem_cons]
  refine ⟨?_, ?_, ?_, ?_, ?_, ?_, ?_, nofun⟩
  · exact turns_listTurn (extracts_getPrefix net)
  · exact turns_listTurn extracts_getPID
  · exact turns_getCostsProcess
  · exact turns_filterProcess
  · exact turns_filterProcess
  · exact turns_filterProcess
  · exact turns_filterProcess

/-- A body in one piece, or in none if it is empty. -/
theorem flatten_wholePiece (body : List Char) : ([body].filter (· ≠ [])).flatten = body := by
  cases body with
  | nil => rfl
  | cons c body => simp

theorem ne_nil_of_mem_wholePiece (body : List Char) :
    ∀ piece ∈ [body].filter (· ≠ []), piece ≠ [] := by
  intro piece hpiece
  simpa using (List.mem_filter.1 hpiece).2

/-- A body is stored, and a request rejected, as if it had come in one piece. The HTTP layer never
passes on an empty piece: a call without data ends the request. -/
theorem receive_eq_receive_whole (net : AddressText) :
    ∀ handler ∈ requestHandlers net, ∀ pieces : List (List Char), (∀ piece ∈ pieces, piece ≠ []) →
      handler.receive pieces = handler.receive ([pieces.flatten].filter (· ≠ [])) := by
  intro handler hhandler pieces hpieces
  have ht := turns_requestHandlers net handler hhandler
  have hreceive := ht.receive_eq handler.init pieces hpieces
  have hreceive' := ht.receive_eq handler.init ([pieces.flatten].filter (· ≠ []))
    (ne_nil_of_mem_wholePiece _)
  rw [flatten_wholePiece, hreceive] at hreceive'
  exact Option.some.inj hreceive'

/-- A PID in two pieces, for the handler of PID maps. -/
theorem receive_eq_receive_whole_pid :
    RequestHandler.receive ⟨_, [], getPIDMapProcess⟩ ["1.i.i".toList, "sp\n".toList] =
      RequestHandler.receive ⟨_, [], getPIDMapProcess⟩ ["1.i.isp\n".toList] :=
  receive_eq_receive_whole ⟨fun _ => none, fun _ _ => []⟩ ⟨_, [], getPIDMapProcess⟩
    (.tail _ (.head _)) ["1.i.i".toList, "sp\n".toList] (by decide)

end Alto.Portal
