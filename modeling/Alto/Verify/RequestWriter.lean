import Alto.Common.RequestWriter
import Alto.Lib.Blocks
import Alto.Verify.RequestBody

/-!
# Requests for p-distances from the client to the portal

`RequestWriter::process` fills its buffer with whole records. It returns 0 at the end of the request,
and also when the next record does not fit into the buffer; the client then takes the request for
complete. The portal reads the records back, unless an ISP name is not one token.
-/

namespace Alto.Request

open Lib

/-! ## Records in buffers -/

namespace Buffer

/-- A buffer whose mark is at its end. -/
structure Clean (buf : Buffer) : Prop where
  mark : buf.mark = buf.written.length
  fits : buf.written.length ≤ buf.len

/-- The room that is left. -/
def room (buf : Buffer) : Nat := buf.len - buf.written.length

theorem write_write (buf : Buffer) (s t : List Char) :
    ((buf.write s).bind fun buf => buf.write t) = buf.write (s ++ t) := by
  unfold write
  rw [List.length_append]
  by_cases hs : buf.written.length + s.length > buf.len
  · have hst : buf.written.length + (s.length + t.length) > buf.len := by omega
    simp only [hs, if_true, Option.bind_none, hst]
  · simp only [if_neg hs, Option.bind_some, List.length_append, Nat.add_assoc,
      List.append_assoc]

/-- Writing the rest of a text. -/
theorem write_bind_write (buf : Buffer) (s t : List Char) {next : Buffer → Option Buffer}
    (hnext : ∀ buf : Buffer, next buf = buf.write t) :
    (buf.write s).bind next = buf.write (s ++ t) := by
  rw [← write_write]
  congr
  exact funext hnext

theorem writeList_eq (preSep : List Char) (ps : List PID) (buf : Buffer) (t : List Char) :
    ((writeList preSep ps buf).bind fun buf => buf.write t) =
      buf.write (ps.flatMap (fun p => preSep ++ castString p.toText) ++ t) := by
  induction ps generalizing buf with
  | nil => rfl
  | cons p ps ih =>
    simp only [writeList, Option.bind_eq_bind, Option.bind_assoc, writePID, ih]
    rw [List.flatMap_cons, List.append_assoc, List.append_assoc]
    apply write_bind_write
    intro buf
    apply write_bind_write
    intro buf
    rfl

theorem Clean.write_fits {buf : Buffer} (h : buf.Clean) {s : List Char} (hs : s.length ≤ buf.room) :
    ∃ buf', buf.write s = some buf' ∧ buf'.writeCheckpoint.Clean ∧
      buf'.writeCheckpoint.written = buf.written ++ s ∧
      buf'.writeCheckpoint.room = buf.room - s.length := by
  have hfits := h.fits
  unfold room at hs
  have hle : ¬ buf.written.length + s.length > buf.len := by omega
  refine ⟨{ buf with written := buf.written ++ s }, if_neg hle, ⟨rfl, ?_⟩, rfl, ?_⟩
  · simp only [writeCheckpoint, List.length_append]
    omega
  · simp only [writeCheckpoint, room, List.length_append]
    omega

theorem Clean.write_none {buf : Buffer} (h : buf.Clean) {s : List Char}
    (hs : ¬ s.length ≤ buf.room) : buf.write s = none := by
  have hfits := h.fits
  unfold room at hs
  exact if_pos (by omega)

theorem Clean.marked {buf : Buffer} (h : buf.Clean) : buf.marked = buf.written := by
  rw [Buffer.marked, h.mark, List.take_length]

end Buffer

theorem writeRecord_eq (reverse : Bool) (record : PID × StdSet PID) (buf : Buffer) :
    writeRecord reverse record buf = buf.write (recordText reverse record) := by
  simp only [writeRecord, Option.bind_eq_bind, Buffer.writePID, Buffer.writeNumber,
    Buffer.writeList_eq, recordText, List.append_assoc]
  apply Buffer.write_bind_write
  intro buf
  apply Buffer.write_bind_write
  intro buf
  apply Buffer.write_bind_write
  intro buf
  apply Buffer.write_bind_write
  intro buf
  apply Buffer.write_bind_write
  intro buf
  rfl

/-- `produce` fills the buffer with records. -/
theorem produce_eq_fill (reverse : Bool) (records : List (PID × StdSet PID)) {buf : Buffer}
    (h : buf.Clean) :
    (produce reverse records buf).1.map (recordText reverse) =
        (fill buf.room (records.map (recordText reverse))).2 ∧
      (produce reverse records buf).2.1.marked =
        buf.written ++ (fill buf.room (records.map (recordText reverse))).1.flatten ∧
      ((produce reverse records buf).2.2 = true → (produce reverse records buf).1 = []) := by
  induction records generalizing buf with
  | nil => exact ⟨rfl, by simp [produce, fill, h.marked], fun _ => rfl⟩
  | cons record records ih =>
    rw [produce, writeRecord_eq, List.map_cons, fill]
    by_cases hfits : (recordText reverse record).length ≤ buf.room
    · obtain ⟨buf', hwrite, hclean, hwritten, hroom⟩ := h.write_fits hfits
      obtain ⟨hrest, hmarked, hend⟩ := ih hclean
      rw [hroom] at hrest hmarked
      simp only [hwrite, if_pos hfits]
      refine ⟨hrest, ?_, hend⟩
      rw [hmarked, hwritten, List.flatten_cons, List.append_assoc]
    · simp only [h.write_none hfits, if_neg hfits]
      exact ⟨rfl, by simp [h.marked], by simp⟩

/-! ## The writer -/

/-- The texts of the records that are left. -/
def RequestPDistanceWriter.left (writer : RequestPDistanceWriter) : List (List Char) :=
  writer.records.map (recordText writer.reverse)

/-- A writer that is finished has no records left. -/
def RequestPDistanceWriter.Inv (writer : RequestPDistanceWriter) : Prop :=
  writer.finished = true → writer.records = []

theorem recordText_ne_nil (reverse : Bool) (record : PID × StdSet PID) :
    recordText reverse record ≠ [] :=
  List.append_ne_nil_of_right_ne_nil _ (List.cons_ne_nil _ _)

theorem process_eq {writer : RequestPDistanceWriter} (hfinished : writer.finished = false)
    (len : Nat) :
    (process writer len).1.left = (fill len writer.left).2 ∧ (process writer len).1.Inv ∧
      (process writer len).2 = if (fill len writer.left).1.flatten.isEmpty then none
        else some (fill len writer.left).1.flatten := by
  obtain ⟨hrest, hmarked, hend⟩ := produce_eq_fill writer.reverse writer.records
    (show Buffer.Clean { len } from ⟨rfl, Nat.zero_le _⟩)
  have hroom : Buffer.room { len } = len := rfl
  rw [hroom] at hrest hmarked
  simp only [List.nil_append] at hmarked
  simp only [process, hfinished, Bool.false_eq_true, if_false, hmarked]
  exact ⟨hrest, hend, rfl⟩

theorem fills_process : Fills process RequestPDistanceWriter.left RequestPDistanceWriter.Inv where
  done writer len hinv hleft := by
    cases hfinished : writer.finished with
    | true => simp [process, hfinished]
    | false => rw [(process_eq hfinished len).2.2, hleft, fill]; rfl
  block writer len item items hinv hleft hlen := by
    cases hfinished : writer.finished with
    | true =>
      rw [RequestPDistanceWriter.left, hinv hfinished] at hleft
      cases hleft
    | false =>
      obtain ⟨hrest, hinv', hbytes⟩ := process_eq hfinished len
      refine ⟨?_, hrest, hinv'⟩
      have hitem : item ≠ [] := by
        have hmem : item ∈ writer.left := by rw [hleft]; simp
        obtain ⟨record, -, rfl⟩ := List.mem_map.1 hmem
        exact recordText_ne_nil _ _
      rw [hbytes, if_neg]
      rw [hleft, fill, if_pos hlen]
      simp [hitem]

theorem process_stuck (writer : RequestPDistanceWriter) (len : Nat) (item : List Char)
    (items : List (List Char)) (_ : writer.Inv) (hleft : writer.left = item :: items)
    (hlen : len < item.length) : (process writer len).2 = none := by
  cases hfinished : writer.finished with
  | true => simp [process, hfinished]
  | false =>
    rw [(process_eq hfinished len).2.2, hleft, fill, if_neg (Nat.not_le.2 hlen)]
    rfl

end Alto.Request

namespace Alto.Portal

open Lib Server IStream Request

/-! ## What the portal makes of a text -/

section Serve

variable {ws more : List Char} {data data' : GetCostsState} {reverse : Bool}

/-- The state of `GetCostsProcess` after a body that ends with white space, and whether the request
is rejected: the whole body without its end, then the rest of it at the end. -/
def serve (input : List Char) (data : GetCostsState) : Option (GetCostsState × Bool) :=
  match roundsConsume (bodyRound getCostsProcess false) input data with
  | .ok rest data => (roundsConsume (bodyRound getCostsProcess true) rest data).result
  | .error data => some (data, true)
  | .undefined => none

theorem settle_eq_serve {input : List Char} (hinput : EndsSep isSpace input)
    (data : GetCostsState) :
    settle (cutConsume isSpace (bodyRound getCostsProcess)) input data = serve input data := by
  have hcut : (input.rdropWhile fun c => !isSpace c) = input := by
    simpa using rdropWhile_append_of_endsSep hinput []
  have hclose : ∀ rest data, (cutConsume isSpace (bodyRound getCostsProcess) true rest data).result =
      (roundsConsume (bodyRound getCostsProcess true) rest data).result := by
    intro rest data
    simp only [cutConsume, if_true]
    cases roundsConsume (bodyRound getCostsProcess true) rest data <;> rfl
  unfold settle serve
  simp only [cutConsume, Bool.false_eq_true, if_false, hcut, List.drop_length]
  cases roundsConsume (bodyRound getCostsProcess false) input data with
  | ok rest data' =>
    simp only [List.append_nil, Consumed.next, Option.bind_some, Feed.close]
    exact hclose rest data'
  | error data' => rfl
  | undefined => rfl

/-- A turn that reads an entry takes it off the body. -/
theorem serve_of_mark {input : List Char} {req : IStream}
    (h : getCostsProcess false { rest := input } data = .mark req data') :
    serve input data = serve req.rest data' := by
  have hround : bodyRound getCostsProcess false input data = .done req.rest data' := by
    rw [bodyRound, h]
    rfl
  rw [serve, roundsConsume_eq (turns_getCostsProcess.shrinks false), hround]
  rfl

/-- A turn that fails in the middle of the body rejects the request. -/
theorem serve_of_readErr {input : List Char} (req : IStream) (heof : req.eof = false)
    (h : ∀ finished data, getCostsProcess finished { rest := input } data =
      .readErr finished req data) : serve input data = some (data, true) := by
  have hfalse : bodyRound getCostsProcess false input data = .stop data := by
    rw [bodyRound, h, readErr_false]
    rfl
  have htrue : bodyRound getCostsProcess true input data = .error data := by
    rw [bodyRound, h]
    simp [Turn.readErr, requestReadErr, heof, Turn.toRound]
  simp only [serve, roundsConsume_eq (turns_getCostsProcess.shrinks false), hfalse,
    roundsConsume_eq (turns_getCostsProcess.shrinks true), htrue, Consumed.result]

/-- Behind the last entry there is only white space. -/
theorem serve_space (hws : ∀ c ∈ ws, isSpace c = true) : serve ws data = some (data, false) := by
  have hnone : getPID { rest := ws } = (none, { rest := [], eof := true, fail := true }) := by
    rw [getPID, getUnsigned_eq, List.dropWhile_eq_nil_iff.2 hws]
    rfl
  have hturn : ∀ finished, getCostsProcess finished { rest := ws } data =
      .readErr finished { rest := [], eof := true, fail := true } data := by
    intro finished
    simp only [getCostsProcess, hnone]
    rfl
  have hfalse : bodyRound getCostsProcess false ws data = .stop data := by
    rw [bodyRound, hturn]
    rfl
  have htrue : bodyRound getCostsProcess true ws data = .finish data := by
    rw [bodyRound, hturn]
    rfl
  simp only [serve, roundsConsume_eq (turns_getCostsProcess.shrinks false), hfalse,
    roundsConsume_eq (turns_getCostsProcess.shrinks true), htrue, Consumed.result]

/-! ## Records that are read as they have been written -/

theorem castString_token {text : List Char} (h : IsToken text) : castString text = text := by
  have hread := getString_token h [] [] (fun _ h => nomatch h) endsToken_nil
  rw [List.nil_append, List.append_nil] at hread
  rw [castString, hread]
  rfl

/-- What is written of a PID is always a token. -/
theorem isToken_castString (p : PID) : IsToken (castString p.toText) := by
  obtain ⟨d, ds, hd, hdigit⟩ := exists_toDigits_eq_cons p.num
  have hne : p.toText.dropWhile isSpace ≠ [] := by
    rw [PID.toText_eq, hd, List.cons_append, List.dropWhile_cons_of_neg]
    · exact List.cons_ne_nil _ _
    · simp [isSpace_of_isDigit hdigit]
  have hread := getString_eq_some.2 ⟨hne, rfl, rfl⟩
  rw [castString, hread]
  exact isToken_takeWhile hne

/-- The flag of a request. -/
def flagText (reverse : Bool) : List Char :=
  if reverse then "inc-reverse".toList else "no-reverse".toList

theorem isToken_flagText (reverse : Bool) : IsToken (flagText reverse) := by
  cases reverse <;> decide

/-- The destinations of a record. -/
def dstsText (dsts : List PID) : List Char :=
  dsts.flatMap fun dst => ['\t'] ++ castString dst.toText

theorem recordText_append (record : PID × StdSet PID) (more : List Char) :
    recordText reverse record ++ more = castString record.1.toText ++ '\t' :: (flagText reverse ++
      '\t' :: (Nat.toDigits 10 record.2.size ++
        (dstsText record.2.toList ++ '\r' :: '\n' :: more))) := by
  simp only [recordText, flagText, dstsText, castString_token (isToken_toDigits _), List.append_assoc,
    List.cons_append, List.nil_append]

/-- Behind the number of destinations stands white space. -/
theorem exists_dstsText (dsts : List PID) (more : List Char) :
    ∃ c tail, dstsText dsts ++ '\r' :: more = c :: tail ∧ isSpace c = true ∧ c.isDigit = false := by
  cases dsts with
  | nil => exact ⟨'\r', more, rfl, rfl, rfl⟩
  | cons dst dsts => exact ⟨'\t', _, rfl, rfl, rfl⟩

/-- The head of a record. -/
theorem header_recordText (reverse : Bool) (record : PID × StdSet PID) (hsrc : record.1.Printable)
    (hsize : record.2.size < 2 ^ 32) (hws : ∀ c ∈ ws, isSpace c = true) (more : List Char) :
    Header (ws ++ (recordText reverse record ++ more)) record.1 (flagText reverse) record.2.size
      { rest := dstsText record.2.toList ++ '\r' :: '\n' :: more } := by
  obtain ⟨c, tail, htail, hc, hdigit⟩ := exists_dstsText record.2.toList ('\n' :: more)
  rw [recordText_append, castString_token hsrc.isToken, htail]
  have hflag := getString_token (isToken_flagText reverse) ['\t']
    ('\t' :: (Nat.toDigits 10 record.2.size ++ c :: tail)) (by simp [isSpace]) (endsToken_cons rfl _)
  have hcount := getUnsigned_toDigits hsize ['\t'] (c :: tail) (by simp [isSpace])
    (fun c' hc' => by cases hc'; exact hdigit)
  exact ⟨_, _, hsrc.getPID ws _ hws (endsToken_cons rfl _), hflag, hcount⟩

/-- The destinations of a record. -/
theorem readDsts_dstsText {dsts : List PID} (hdsts : ∀ dst ∈ dsts, dst.Printable) (finished : Bool)
    (dst : PID) (set : StdSet PID) (more : List Char) :
    readDsts finished dsts.length dst { rest := dstsText dsts ++ '\r' :: more } set =
      .done { rest := '\r' :: more } (dsts.foldl (fun set dst => set.insert dst) set) := by
  induction dsts generalizing dst set with
  | nil => rfl
  | cons dst' dsts ih =>
    have hdst' := hdsts dst' (by simp)
    obtain ⟨c, tail, htail, hc, -⟩ := exists_dstsText dsts more
    have hread : getPID { rest := dstsText (dst' :: dsts) ++ '\r' :: more } =
        (some dst', { rest := dstsText dsts ++ '\r' :: more }) := by
      have htext : dstsText (dst' :: dsts) ++ '\r' :: more =
          ['\t'] ++ (dst'.toText ++ (dstsText dsts ++ '\r' :: more)) := by
        simp [dstsText, castString_token hdst'.isToken]
      rw [htext, htail]
      exact hdst'.getPID ['\t'] (c :: tail) (by simp [isSpace]) (endsToken_cons hc tail)
    rw [List.length_cons, readDsts, hread]
    exact ih (fun x hx => hdsts x (List.mem_cons_of_mem _ hx)) dst' _

theorem foldl_insert_toList (set : StdSet PID) :
    set.toList.foldl (fun set dst => set.insert dst) ∅ = set := by
  have hmem : ∀ (l : List PID) (s : StdSet PID) (x : PID),
      x ∈ l.foldl (fun set dst => set.insert dst) s ↔ x ∈ l ∨ x ∈ s := by
    intro l
    induction l with
    | nil => simp
    | cons y l ih =>
      intro s x
      rw [List.foldl_cons, ih, StdSet.mem_insert, List.mem_cons]
      constructor
      · rintro (h | h | h)
        · exact .inl (.inr h)
        · exact .inl (.inl h.symm)
        · exact .inr h
      · rintro ((h | h) | h)
        · exact .inr (.inl h.symm)
        · exact .inl h
        · exact .inr (.inr h)
  apply Std.ExtTreeSet.ext_mem
  intro x
  rw [hmem, Std.ExtTreeSet.mem_toList]
  simp

/-- The data after a record. -/
def storeRecord (reverse : Bool) (data : GetCostsState) (record : PID × StdSet PID) :
    GetCostsState :=
  { data.setEntry record.1 reverse record.2 with
    needAll := data.needAll || record.2.size == 0 }

/-- A record whose PIDs are printable. -/
structure Readable (record : PID × StdSet PID) : Prop where
  src : record.1.Printable
  size : record.2.size < 2 ^ 32
  dsts : ∀ dst ∈ record.2, dst.Printable

theorem entryTurn_flagText (finished : Bool) (src : PID) (reverse : Bool) (dstCount : Nat)
    (req : IStream) (data : GetCostsState) :
    entryTurn finished src (flagText reverse) dstCount req data =
      readEntry finished src reverse dstCount req data := by
  cases reverse with
  | true => simp [entryTurn, flagText]
  | false => simp [entryTurn, flagText]

theorem serve_recordText {record : PID × StdSet PID} (hr : Readable record)
    (hws : ∀ c ∈ ws, isSpace c = true) (more : List Char) :
    serve (ws ++ (recordText reverse record ++ more)) data =
      serve ('\r' :: '\n' :: more) (storeRecord reverse data record) := by
  have hheader := header_recordText reverse record hr.src hr.size hws more
  have hdsts := readDsts_dstsText (fun dst hdst => hr.dsts dst (Std.ExtTreeSet.mem_toList.1 hdst))
    false default ∅ ('\n' :: more)
  rw [foldl_insert_toList, Std.ExtTreeSet.length_toList] at hdsts
  have hturn : getCostsProcess false { rest := ws ++ (recordText reverse record ++ more) } data =
      .mark { rest := '\r' :: '\n' :: more } (storeRecord reverse data record) := by
    rw [hheader.turn, entryTurn_flagText, readEntry]
    split
    · next hzero =>
      have hempty : record.2 = ∅ := Std.ExtTreeSet.eq_empty_iff_size_eq_zero.2 hzero
      simp [hempty, dstsText, storeRecord]
    · next hcount => simp [hdsts, storeRecord, hcount, GetCostsState.setEntry]
  exact serve_of_mark hturn

/-! ## The default PID as a destination -/

/-- The text of the default PID: its ISP is empty. -/
theorem castString_default : castString (default : PID).toText = ['0', '.', 'i', '.'] := by
  decide

theorem toList_singleton (p : PID) :
    (({p} : StdSet PID)).toList = [p] ∧ ({p} : StdSet PID).size = 1 := by
  have hsize : ({p} : StdSet PID).size = 1 := by
    show ((∅ : StdSet PID).insert p).size = 1
    rw [Std.ExtTreeSet.size_insert]
    simp
  refine ⟨?_, hsize⟩
  obtain ⟨q, hq⟩ := List.length_eq_one_iff.1 (Std.ExtTreeSet.length_toList.trans hsize)
  have hmem : q ∈ ({p} : StdSet PID) := by
    rw [← Std.ExtTreeSet.mem_toList, hq]
    simp
  rw [hq, StdSet.mem_singleton.1 hmem]

/-- The text of such a record. -/
theorem header_default (reverse : Bool) {src : PID} (hsrc : src.Printable)
    (hws : ∀ c ∈ ws, isSpace c = true) (more : List Char) :
    Header (ws ++ (recordText reverse (src, {default}) ++ more)) src (flagText reverse) 1
      { rest := '\t' :: '0' :: '.' :: 'i' :: '.' :: '\r' :: '\n' :: more } := by
  have hheader := header_recordText reverse (src, {default}) hsrc (by
    rw [(toList_singleton _).2]
    decide) hws more
  rw [(toList_singleton _).1, (toList_singleton _).2] at hheader
  simpa [dstsText, castString_default] using hheader

/-- At the end of the body, the server takes the value of its variable for the destination. -/
theorem serve_default_last {src : PID} (hsrc : src.Printable) (hws : ∀ c ∈ ws, isSpace c = true) :
    serve (ws ++ recordText reverse (src, {default})) data =
      some (data.setEntry src reverse {default}, false) := by
  have hheader := header_default reverse hsrc hws []
  rw [List.append_nil] at hheader
  have hfalse : bodyRound getCostsProcess false (ws ++ recordText reverse (src, {default})) data =
      .stop (data.setEntry src reverse ∅) := by
    rw [bodyRound, hheader.turn, entryTurn_flagText]
    rfl
  have htrue : bodyRound getCostsProcess true (ws ++ recordText reverse (src, {default}))
      (data.setEntry src reverse ∅) = .done [] (data.setEntry src reverse {default}) := by
    rw [bodyRound, hheader.turn, entryTurn_flagText, readEntry_again (by decide)]
    rfl
  have hend : bodyRound getCostsProcess true [] (data.setEntry src reverse {default}) =
      .finish (data.setEntry src reverse {default}) := rfl
  have hshrinks := turns_getCostsProcess.shrinks
  simp only [serve, roundsConsume_eq (hshrinks false), hfalse, roundsConsume_eq (hshrinks true),
    htrue, hend, Consumed.result]

/-- In front of another record, the server takes its source for the ISP of the destination and cannot
go on. -/
theorem serve_default_more {src : PID} (hsrc : src.Printable) (hws : ∀ c ∈ ws, isSpace c = true)
    (record : PID × StdSet PID) (more : List Char) :
    ∃ data', serve (ws ++ (recordText reverse (src, {default}) ++
      (recordText reverse record ++ more))) data = some (data', true) := by
  obtain ⟨rest, hrest⟩ : ∃ rest, recordText reverse record ++ more =
      castString record.1.toText ++ '\t' :: (flagText reverse ++ rest) :=
    ⟨_, recordText_append record more⟩
  rw [hrest]
  have hheader := header_default reverse hsrc hws
    (castString record.1.toText ++ '\t' :: (flagText reverse ++ rest))
  -- the destination takes the source of the next record for its ISP
  have hisp := getString_token (isToken_castString record.1) ['\r', '\n']
    ('\t' :: (flagText reverse ++ rest)) (by simp [isSpace]) (endsToken_cons rfl _)
  have hdst : getPID { rest := '\t' :: '0' :: '.' :: 'i' :: '.' :: '\r' :: '\n' ::
      (castString record.1.toText ++ '\t' :: (flagText reverse ++ rest)) } =
        (some ⟨String.ofList (castString record.1.toText), 0, false⟩, _) :=
    getPID_of_parts rfl (.inl rfl) hisp
  have hturn : getCostsProcess false { rest := ws ++ (recordText reverse (src, {default}) ++
      (castString record.1.toText ++ '\t' :: (flagText reverse ++ rest))) } data =
        .mark { rest := '\t' :: (flagText reverse ++ rest) }
          (data.setEntry src reverse {⟨String.ofList (castString record.1.toText), 0, false⟩}) := by
    rw [hheader.turn, entryTurn_flagText, readEntry, if_neg (by decide), readDsts, hdst]
    rfl
  -- the next turn starts at the flag
  refine ⟨_, (serve_of_mark hturn).trans (serve_of_readErr
    { rest := flagText reverse ++ rest, fail := true } rfl ?_)⟩
  intro finished data
  cases reverse <;> rfl

/-- A number of destinations that is no `unsigned int`. -/
theorem serve_too_many {record : PID × StdSet PID} (hsrc : record.1.Printable)
    (hsize : 2 ^ 32 ≤ record.2.size) (hws : ∀ c ∈ ws, isSpace c = true) (more : List Char) :
    serve (ws ++ (recordText reverse record ++ more)) data = some (data, true) := by
  obtain ⟨c, tail, htail, hc, hdigit⟩ := exists_dstsText record.2.toList ('\n' :: more)
  have hflag := getString_token (isToken_flagText reverse) ['\t']
    ('\t' :: (Nat.toDigits 10 record.2.size ++ c :: tail)) (by simp [isSpace]) (endsToken_cons rfl _)
  have hpid := hsrc.getPID ws ('\t' :: (flagText reverse ++ '\t' ::
    (Nat.toDigits 10 record.2.size ++ c :: tail))) hws (endsToken_cons rfl _)
  have hcount := getUnsigned_toDigits_append record.2.size ['\t'] (c :: tail) (by simp [isSpace])
    (fun c' hc' => by cases hc'; exact hdigit)
  rw [if_pos hsize] at hcount
  rw [recordText_append, castString_token hsrc.isToken, htail]
  apply serve_of_readErr { rest := c :: tail, fail := true } rfl
  intro finished data
  simp only [getCostsProcess, hpid]
  simp only [List.cons_append, List.nil_append, List.isEmpty_cons] at hflag hcount ⊢
  rw [hflag]
  simp only
  rw [hcount]

/-! ## What can be stored at all -/

/-- The ISPs of the PIDs in an entry are tokens, but for the default PID. -/
structure Entry (src : PID) (dsts : StdSet PID) : Prop where
  src : IsToken src.isp.toList
  dsts : (∀ dst ∈ dsts, IsToken dst.isp.toList) ∨ dsts = {default}

/-- All entries that are stored. -/
def Stored (data : GetCostsState) : Prop :=
  ∀ src entry, data.pids[src]? = some entry → Entry src entry.2

theorem isToken_of_getPID {input : List Char} {p : PID} {req : IStream}
    (h : getPID { rest := input } = (some p, req)) : IsToken p.isp.toList := by
  obtain ⟨num, c, rest, isp, -, -, hisp, rfl⟩ := getPID_eq_some h
  obtain ⟨hne, rfl, -⟩ := getString_eq_some.1 hisp
  rw [String.toList_ofList]
  exact isToken_takeWhile hne

/-- The destinations that `readDsts` has stored, however it ends. -/
def ReadDsts.dsts : ReadDsts → StdSet PID
  | .done _ dsts | .more dsts | .invalid dsts => dsts

/-- At the end of the body, the destination before is stored again. -/
theorem readDsts_eof (n : Nat) (dst : PID) {req : IStream} (hreq : req.eof = true)
    (dsts : StdSet PID) (hdst : dst ∈ dsts) : (readDsts true n dst req dsts).dsts = dsts := by
  induction n generalizing req with
  | zero => rfl
  | succ n ih =>
    have hnone : getPID req = (none, { req with fail := true }) :=
      extracts_getPID.bad (by simp [good, hreq])
    have hinsert : dsts.insert dst = dsts := by
      apply Std.ExtTreeSet.ext_mem
      intro x
      rw [StdSet.mem_insert]
      constructor
      · rintro (rfl | hx)
        · exact hdst
        · exact hx
      · exact .inr
    have herr : requestReadErr true { req with fail := true } = .ignore := by
      simp [requestReadErr, hreq]
    simp only [readDsts, hnone, herr, hinsert]
    exact ih hreq

theorem readDsts_all (finished : Bool) (n : Nat) (dst : PID) {req : IStream} (hreq : req.Settled)
    (dsts : StdSet PID) (hall : ∀ x ∈ dsts, IsToken x.isp.toList)
    (hdst : dst ∈ dsts ∨ dst = default ∧ dsts = ∅) :
    (∀ x ∈ (readDsts finished n dst req dsts).dsts, IsToken x.isp.toList) ∨
      (readDsts finished n dst req dsts).dsts = {default} := by
  induction n generalizing dst req dsts with
  | zero => exact .inl hall
  | succ n ih =>
    rw [readDsts, extracts_getPID.settled hreq]
    split
    · next dst' req' hread =>
      apply ih _ (extracts_getPID.settled_some hread)
      · intro x hx
        rcases StdSet.mem_insert.1 hx with rfl | hx
        · exact isToken_of_getPID hread
        · exact hall x hx
      · exact .inl (StdSet.mem_insert.2 (.inl rfl))
    · next req' hread =>
      split
      · next herr =>
        obtain ⟨rfl, heof⟩ : finished = true ∧ req'.eof = true := by
          unfold requestReadErr at herr
          split at herr
          · split at herr
            · exact ⟨‹_›, ‹_›⟩
            · cases herr
          · split at herr <;> cases herr
        rw [readDsts_eof n dst heof _ (StdSet.mem_insert.2 (.inl rfl))]
        rcases hdst with hdst | ⟨rfl, rfl⟩
        · refine .inl fun x hx => ?_
          rcases StdSet.mem_insert.1 hx with rfl | hx
          · exact hall _ hdst
          · exact hall x hx
        · exact .inr rfl
      · exact .inl hall
      · exact .inl hall

theorem Stored.setEntry (h : Stored data) {src : PID} {dsts : StdSet PID} (he : Entry src dsts)
    (reverse : Bool) : Stored (data.setEntry src reverse dsts) := by
  intro src' entry hentry
  rw [GetCostsState.setEntry, StdMap.get_insert] at hentry
  split at hentry
  · next heq =>
    subst heq
    cases hentry
    exact he
  · exact h src' entry hentry

theorem readEntry_stored (h : Stored data) {src : PID} (hsrc : IsToken src.isp.toList)
    (finished reverse : Bool) (dstCount : Nat) {req : IStream} (hreq : req.Settled) :
    Stored (readEntry finished src reverse dstCount req data).data := by
  rw [readEntry]
  split
  · have hempty : Entry src ∅ := ⟨hsrc, .inl fun _ h => absurd h Std.ExtTreeSet.not_mem_empty⟩
    exact h.setEntry hempty reverse
  · have hall := readDsts_all finished dstCount default hreq ∅
      (fun _ h => absurd h Std.ExtTreeSet.not_mem_empty) (.inr ⟨rfl, rfl⟩)
    have hentry : Stored (data.setEntry src reverse
        (readDsts finished dstCount default req ∅).dsts) := h.setEntry ⟨hsrc, hall⟩ reverse
    cases hread : readDsts finished dstCount default req ∅ <;> rw [hread] at hentry <;>
      exact hentry

theorem getCostsProcess_stored (finished : Bool) (input : List Char) (h : Stored data) :
    Stored (getCostsProcess finished { rest := input } data).data := by
  rcases getCostsProcess_cases input with ⟨src, reverse, dstCount, req, hheader⟩ | ⟨req, herr⟩
  · have hreq := hheader.settled.1
    have hsrc : IsToken src.isp.toList := by
      obtain ⟨_, _, hread, -, -⟩ := hheader.read
      exact isToken_of_getPID hread
    rw [hheader.turn, entryTurn]
    split
    · exact readEntry_stored h hsrc finished true dstCount hreq
    · split
      · exact readEntry_stored h hsrc finished false dstCount hreq
      · exact h
  · rw [herr, Turn.readErr]
    split <;> exact h

theorem round_stored (finished : Bool) (input : List Char) (data : GetCostsState)
    (h : Stored data) : (bodyRound getCostsProcess finished input data).All Stored := by
  have hturn := getCostsProcess_stored finished input h
  rw [bodyRound]
  cases hr : getCostsProcess finished { rest := input } data with
  | mark req data' =>
    rw [hr] at hturn
    exact hturn
  | ret result rejected data' =>
    rw [hr] at hturn
    cases result <;> cases rejected <;> exact hturn

theorem serve_stored {input : List Char} (h : Stored data) {rejected : Bool}
    (hserve : serve input data = some (data', rejected)) : Stored data' := by
  have hfirst : (roundsConsume (bodyRound getCostsProcess false) input data).All Stored :=
    rounds_all (round_stored false) _ _ h
  rw [serve] at hserve
  cases hr : roundsConsume (bodyRound getCostsProcess false) input data with
  | ok rest data₁ =>
    rw [hr] at hfirst hserve
    exact (rounds_all (round_stored true) _ _ hfirst).of_result hserve
  | error data₁ =>
    rw [hr] at hfirst hserve
    cases hserve
    exact hfirst
  | undefined =>
    rw [hr] at hserve
    cases hserve

/-! ## Requests that are read back -/

/-- The records that the server reads as they have been written. -/
def Storable : List (PID × StdSet PID) → Prop
  | [] => True
  | (src, dsts) :: records => IsToken src.isp.toList ∧ dsts.size < 2 ^ 32 ∧
      ((∀ dst ∈ dsts, IsToken dst.isp.toList) ∨ dsts = {default} ∧ records = []) ∧
      Storable records

/-- The numbers of PIDs are of the type `unsigned int`. -/
def Bounded (record : PID × StdSet PID) : Prop :=
  record.1.num < 2 ^ 32 ∧ ∀ dst ∈ record.2, dst.num < 2 ^ 32

theorem readable_of_isToken {record : PID × StdSet PID} (hb : Bounded record)
    (hsrc : IsToken record.1.isp.toList) (hsize : record.2.size < 2 ^ 32)
    (hdsts : ∀ dst ∈ record.2, IsToken dst.isp.toList) : Readable record where
  src := ⟨hb.1, hsrc⟩
  size := hsize
  dsts dst hdst := ⟨hb.2 dst hdst, hdsts dst hdst⟩

/-- The text of records that can be stored. -/
theorem serve_of_storable {records : List (PID × StdSet PID)} (hb : ∀ r ∈ records, Bounded r)
    (hs : Storable records) (hws : ∀ c ∈ ws, isSpace c = true) :
    serve (ws ++ (records.map (recordText reverse)).flatten) data =
      some (records.foldl (storeRecord reverse) data, false) := by
  induction records generalizing ws data with
  | nil =>
    rw [List.map_nil, List.flatten_nil, List.append_nil]
    exact serve_space hws
  | cons record records ih =>
    obtain ⟨src, dsts⟩ := record
    obtain ⟨hsrc, hsize, hdsts, hrest⟩ := hs
    have hb' := hb (src, dsts) (by simp)
    rw [List.map_cons, List.flatten_cons, List.foldl_cons]
    rcases hdsts with hdsts | ⟨rfl, rfl⟩
    · rw [serve_recordText (readable_of_isToken hb' hsrc hsize hdsts) hws]
      exact @ih ['\r', '\n'] _ (fun r hr => hb r (List.mem_cons_of_mem _ hr)) hrest (by simp [isSpace])
    · rw [List.map_nil, List.flatten_nil, List.append_nil, serve_default_last ⟨hb'.1, hsrc⟩ hws]
      have hcount : (({default} : StdSet PID).size == 0) = false := by
        rw [(toList_singleton _).2]
        rfl
      simp only [List.foldl_nil, storeRecord, hcount, Bool.or_false]
      rfl

/-- Records whose text is not rejected. -/
theorem storable_of_serve {records : List (PID × StdSet PID)} (hb : ∀ r ∈ records, Bounded r)
    (he : ∀ r ∈ records, Entry r.1 r.2) (hws : ∀ c ∈ ws, isSpace c = true)
    (hserve : serve (ws ++ (records.map (recordText reverse)).flatten) data =
      some (data', false)) : Storable records := by
  induction records generalizing ws data with
  | nil => exact trivial
  | cons record records ih =>
    have hb' := hb record (by simp)
    obtain ⟨hsrc, hdsts⟩ := he record (by simp)
    have hsrc' : record.1.Printable := ⟨hb'.1, hsrc⟩
    rw [List.map_cons, List.flatten_cons] at hserve
    by_cases hsize : record.2.size < 2 ^ 32
    swap
    · rw [serve_too_many hsrc' (Nat.not_lt.1 hsize) hws] at hserve
      cases hserve
    rcases hdsts with hdsts | hdefault
    · rw [serve_recordText (readable_of_isToken hb' hsrc hsize hdsts) hws] at hserve
      exact ⟨hsrc, hsize, .inl hdsts, @ih ['\r', '\n'] _
        (fun r hr => hb r (List.mem_cons_of_mem _ hr))
        (fun r hr => he r (List.mem_cons_of_mem _ hr)) (by simp [isSpace]) hserve⟩
    · obtain ⟨src, dsts⟩ := record
      change dsts = {default} at hdefault
      subst hdefault
      cases records with
      | nil => exact ⟨hsrc, hsize, .inr ⟨rfl, rfl⟩, trivial⟩
      | cons next records =>
        obtain ⟨data'', hrejected⟩ := serve_default_more (show src.Printable from hsrc') hws next
          (records.map (recordText reverse)).flatten
        rw [List.map_cons, List.flatten_cons, hrejected] at hserve
        cases hserve

end Serve

/-! ## The map -/

section Map

variable {pids : StdMap PID (StdSet PID)} {reverse : Bool}

theorem mem_toList {src : PID} {dsts : StdSet PID} :
    (src, dsts) ∈ pids.toList ↔ pids[src]? = some dsts :=
  Std.ExtTreeMap.mem_toList_iff_getElem?_eq_some

/-- The map with the reverse flag in every entry. -/
def withFlag (reverse : Bool) (pids : StdMap PID (StdSet PID)) (src : PID) :
    Option (Bool × StdSet PID) :=
  pids[src]?.map fun dsts => (reverse, dsts)

theorem foldl_storeRecord_pids (records : List (PID × StdSet PID)) (data : GetCostsState) :
    (records.foldl (storeRecord reverse) data).pids =
      records.foldl (fun m r => m.insert r.1 (reverse, r.2)) data.pids := by
  induction records generalizing data with
  | nil => rfl
  | cons record records ih => exact ih _

/-- Storing all records of a map stores the map. -/
theorem foldl_storeRecord_get (src : PID) :
    (pids.toList.foldl (storeRecord reverse) {}).pids[src]? = withFlag reverse pids src := by
  rw [foldl_storeRecord_pids, withFlag]
  rcases StdMap.get_foldl_insert (fun r : PID × StdSet PID => r.1) (fun r => (reverse, r.2))
    pids.toList ∅ src with ⟨⟨src', dsts⟩, hmem, rfl, hget⟩ | ⟨hno, hget⟩
  · rw [hget, mem_toList.1 hmem]
    rfl
  · rw [hget]
    cases hp : pids[src]? with
    | none => simp
    | some dsts => exact absurd rfl (hno (src, dsts) (mem_toList.2 hp))

theorem endsSep_requestText : EndsSep isSpace (requestText pids reverse) := by
  rw [requestText]
  induction pids.toList with
  | nil => exact endsSep_nil
  | cons record records ih =>
    rw [List.map_cons, List.flatten_cons]
    intro c hc
    cases hnil : (records.map (recordText reverse)).flatten with
    | nil =>
      rw [hnil, List.append_nil, recordText, List.getLast?_append_of_ne_nil _ (by simp)] at hc
      cases hc
      rfl
    | cons c' text =>
      rw [List.getLast?_append_of_ne_nil _ (by simp [hnil])] at hc
      exact ih c hc

/-! ## The round trip -/

/-- The client gets the whole text of the request from its writer, with buffers of these sizes, and
the server stores the map and the flag, whatever pieces the text comes in. -/
structure RoundTrip (pids : StdMap PID (StdSet PID)) (reverse : Bool) (sizes : Nat → Nat) :
    Prop where
  written : ∃ n, blocks process (.ofMap pids reverse) ((List.range n).map sizes) =
    some (requestText pids reverse)
  stored : ∀ pieces : List (List Char), (∀ piece ∈ pieces, piece ≠ []) →
    pieces.flatten = requestText pids reverse →
      (receive getCostsProcess {} pieces).rejected = false ∧
        ∀ src, (receive getCostsProcess {} pieces).callbackData.pids[src]? =
          withFlag reverse pids src

/-- The writer delivers the whole text exactly if no buffer is too small. -/
theorem written_iff {sizes : Nat → Nat} :
    (∃ n, blocks process (.ofMap pids reverse) ((List.range n).map sizes) =
      some (requestText pids reverse)) ↔
      ∀ n, Packs ((List.range n).map sizes) (pids.toList.map (recordText reverse)) := by
  have hinv : (RequestPDistanceWriter.ofMap pids reverse).Inv := fun h => nomatch h
  constructor
  · rintro ⟨n, hn⟩ m
    have hmore : blocks process (.ofMap pids reverse) ((List.range (n + m)).map sizes) =
        some (requestText pids reverse) := by
      rw [List.range_add, List.map_append]
      exact blocks_append hn _
    have hpacks := Fills.packs_of_eq_flatten process_stuck fills_process hinv
      (fun item hitem => by
        obtain ⟨record, -, rfl⟩ := List.mem_map.1 hitem
        exact recordText_ne_nil _ _) hmore
    rw [Nat.add_comm, List.range_add, List.map_append] at hpacks
    exact packs_of_append hpacks
  · intro h
    have hpacks := h (pids.toList.length + 1)
    obtain ⟨text, htext⟩ := Option.isSome_iff_exists.1
      (fills_process.isSome_of_lt hinv hpacks (by simp [RequestPDistanceWriter.left,
        RequestPDistanceWriter.ofMap]))
    refine ⟨_, htext.trans ?_⟩
    rw [fills_process.eq_flatten hinv hpacks htext]
    rfl

/-- The server stores the map exactly if its records can be stored. -/
theorem stored_iff (hb : ∀ r ∈ pids.toList, Bounded r) {pieces : List (List Char)}
    (hpieces : ∀ piece ∈ pieces, piece ≠ []) (htext : pieces.flatten = requestText pids reverse) :
    ((receive getCostsProcess {} pieces).rejected = false ∧
      ∀ src, (receive getCostsProcess {} pieces).callbackData.pids[src]? =
        withFlag reverse pids src) ↔ Storable pids.toList := by
  have hreceive := turns_getCostsProcess.receive_eq {} pieces hpieces
  rw [htext, settle_eq_serve endsSep_requestText, requestText, ← List.nil_append (List.flatten _)]
    at hreceive
  constructor
  · rintro ⟨hrejected, hmap⟩
    rw [hrejected] at hreceive
    have hstored : Stored (receive getCostsProcess {} pieces).callbackData := by
      refine serve_stored ?_ hreceive
      intro src entry h
      simp at h
    refine storable_of_serve hb ?_ (List.forall_mem_nil _) hreceive
    rintro ⟨src, dsts⟩ hmem
    exact hstored src (reverse, dsts) (by rw [hmap, withFlag, mem_toList.1 hmem]; rfl)
  · intro hs
    rw [serve_of_storable hb hs (List.forall_mem_nil _)] at hreceive
    obtain ⟨hdata, hrejected⟩ := Prod.mk.inj (Option.some.inj hreceive)
    refine ⟨hrejected.symm, fun src => ?_⟩
    rw [← hdata, foldl_storeRecord_get]

/-- A request is received as it has been meant exactly if no buffer of the client is too small for
the record that it would have to start with, and the records can be stored. -/
theorem roundTrip_iff (pids : StdMap PID (StdSet PID)) (reverse : Bool) (sizes : Nat → Nat)
    (hb : ∀ r ∈ pids.toList, Bounded r) :
    RoundTrip pids reverse sizes ↔
      (∀ n, Packs ((List.range n).map sizes) (pids.toList.map (recordText reverse))) ∧
        Storable pids.toList := by
  rw [← written_iff]
  constructor
  · intro h
    refine ⟨h.written, ?_⟩
    have htext := flatten_wholePiece (requestText pids reverse)
    exact (stored_iff hb (ne_nil_of_mem_wholePiece _) htext).1
      (h.stored _ (ne_nil_of_mem_wholePiece _) htext)
  · rintro ⟨hwritten, hs⟩
    exact ⟨hwritten, fun pieces hpieces htext => (stored_iff hb hpieces htext).2 hs⟩

/-! ## A request for one distance -/

/-- One source with one destination. -/
def onePair : StdMap PID (StdSet PID) :=
  (∅ : StdMap PID (StdSet PID)).insert ⟨"isp", 1, false⟩ {⟨"isp", 2, false⟩}

theorem toList_onePair : onePair.toList = [(⟨"isp", 1, false⟩, {⟨"isp", 2, false⟩})] := by
  decide

theorem bounded_onePair : ∀ r ∈ onePair.toList, Bounded r := by
  rw [toList_onePair]
  rintro r hr
  rw [List.mem_singleton.1 hr]
  refine ⟨by decide, fun dst hdst => ?_⟩
  rw [StdSet.mem_singleton.1 hdst]
  decide

/-- A buffer of 64 bytes is large enough. -/
theorem roundTrip_iff_onePair : RoundTrip onePair false fun _ => 64 := by
  refine (roundTrip_iff onePair false (fun _ => 64) bounded_onePair).2 ⟨fun n => ?_, ?_⟩
  · apply packs_of_forall
    intro max hmax item hitem
    obtain ⟨-, -, rfl⟩ := List.mem_map.1 hmax
    rw [toList_onePair] at hitem
    rw [List.mem_singleton.1 hitem]
    decide
  · rw [toList_onePair]
    refine ⟨by decide, by decide, .inl fun dst hdst => ?_, trivial⟩
    rw [StdSet.mem_singleton.1 hdst]
    decide

/-- A buffer of one byte has no room for the record, which the client takes for the end. -/
theorem not_roundTrip_onePair : ¬ RoundTrip onePair false fun _ => 1 := by
  intro h
  have hpacks := written_iff.1 h.written 1
  rw [toList_onePair] at hpacks
  exact absurd hpacks.1 (by decide)

end Map

end Alto.Portal
