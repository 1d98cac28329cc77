import Alto.Lib.Blocks
import Alto.Portal.ViewHandlers
import Alto.Verify.PrefixMap
import Alto.Verify.ResponseReader
import Alto.Verify.Text

/-!
# The PID map from the portal to its clients

`GetPIDMapWrite` fills blocks with the items of its text: the head of a record, each of its prefixes
and the end of the line. The reader takes the text token by token, and the number of prefixes in the
head tells it where a record ends. What it reads is what the portal has enumerated.
-/

namespace Alto.Server.ResponseStream

open Lib

/-! ## The stream -/

theorem put_put (rsp : ResponseStream) (s t : List Char) :
    (rsp.put s).put t = rsp.put (s ++ t) := by
  unfold put
  by_cases hgood : rsp.good = true
  · by_cases hs : rsp.written.length + s.length ≤ rsp.size
    · simp [hgood, hs, Nat.add_assoc]
    · have ht : ¬ rsp.written.length + (s ++ t).length ≤ rsp.size := by
        rw [List.length_append]
        omega
      have htake : (rsp.written ++ (s ++ t)).take rsp.size = (rsp.written ++ s).take rsp.size := by
        rw [← List.append_assoc]
        apply List.take_append_of_le_length
        rw [List.length_append]
        omega
      simp only [hgood, if_true, if_neg hs, if_neg ht, htake]
      rfl
  · simp [hgood]

/-- A stream that is good and marked at its end. -/
structure Clean (rsp : ResponseStream) : Prop where
  good : rsp.good = true
  mark : rsp.mark = rsp.written.length
  fits : rsp.written.length ≤ rsp.size

/-- The room that is left. -/
def room (rsp : ResponseStream) : Nat := rsp.size - rsp.written.length

theorem clean_start (size : Nat) : Clean { size } :=
  ⟨rfl, rfl, Nat.zero_le _⟩

variable {rsp : ResponseStream} {text : List Char}

theorem Clean.marked (h : rsp.Clean) : rsp.marked = rsp.written := by
  rw [ResponseStream.marked, h.mark, List.take_length]

theorem Clean.put_fits (h : rsp.Clean) (ht : text.length ≤ rsp.room) :
    rsp.put text = { rsp with written := rsp.written ++ text } := by
  have hfits := h.fits
  have hle : rsp.written.length + text.length ≤ rsp.size := by
    unfold room at ht
    omega
  simp only [put, h.good, if_true, if_pos hle]

theorem Clean.put_exhausted (h : rsp.Clean) (ht : ¬ text.length ≤ rsp.room) :
    (rsp.put text).good = false ∧ (rsp.put text).marked = rsp.written := by
  have hfits := h.fits
  have hle : ¬ rsp.written.length + text.length ≤ rsp.size := by
    unfold room at ht
    omega
  simp only [put, h.good, if_true, if_neg hle, ResponseStream.marked, h.mark, List.take_take,
    Nat.min_eq_left hfits, List.take_left, and_self]

theorem Clean.setMark_put (h : rsp.Clean) (ht : text.length ≤ rsp.room) :
    (rsp.put text).setMark.Clean ∧ (rsp.put text).setMark.written = rsp.written ++ text ∧
      (rsp.put text).setMark.room = rsp.room - text.length := by
  have hfits := h.fits
  unfold room at ht
  rw [h.put_fits ht]
  refine ⟨⟨h.good, rfl, ?_⟩, rfl, ?_⟩
  · simp only [setMark, List.length_append]
    omega
  · simp only [setMark, room, List.length_append]
    omega

/-- Items put one after the other, with a mark behind each: the items that are left when the stream
is exhausted, and the stream. -/
def putAll : List (List Char) → ResponseStream → List (List Char) × ResponseStream
  | [], rsp => ([], rsp)
  | item :: items, rsp =>
    if (rsp.put item).good then putAll items (rsp.put item).setMark
    else (item :: items, rsp.put item)

theorem putAll_append {xs : List (List Char)} (h : rsp.good = true) (ys : List (List Char)) :
    putAll (xs ++ ys) rsp =
      if (putAll xs rsp).2.good then putAll ys (putAll xs rsp).2
      else ((putAll xs rsp).1 ++ ys, (putAll xs rsp).2) := by
  induction xs generalizing rsp with
  | nil => simp [putAll, h]
  | cons item xs ih =>
    rw [List.cons_append, putAll, putAll]
    split
    · next hgood => exact ih hgood
    · rfl

/-- The items are filled into the block. -/
theorem Clean.putAll_eq_fill (h : rsp.Clean) (items : List (List Char)) :
    (putAll items rsp).1 = (fill rsp.room items).2 ∧
      (putAll items rsp).2.marked = rsp.written ++ (fill rsp.room items).1.flatten := by
  induction items generalizing rsp with
  | nil => exact ⟨rfl, by simp [putAll, fill, h.marked]⟩
  | cons item items ih =>
    rw [putAll, fill]
    by_cases hfits : item.length ≤ rsp.room
    · obtain ⟨hclean, hwritten, hroom⟩ := h.setMark_put hfits
      have hgood : (rsp.put item).good = true := hclean.good
      rw [if_pos hgood, if_pos hfits]
      obtain ⟨hrest, hmarked⟩ := ih hclean
      rw [hroom] at hrest hmarked
      exact ⟨hrest, by rw [hmarked, hwritten, List.flatten_cons, List.append_assoc]⟩
    · obtain ⟨hbad, hmarked⟩ := h.put_exhausted hfits
      rw [if_neg (by simp [hbad]), if_neg hfits]
      exact ⟨rfl, by simp [hmarked]⟩

end Alto.Server.ResponseStream

namespace Alto.Portal

open Lib Server Server.ResponseStream PatriciaTrie

/-! ## The items of a PID map -/

section Writer

variable (net : AddressText)

/-- The head of a record. -/
def headItem (record : PID × List IPPrefix) : List Char :=
  record.1.toText ++ ['\t'] ++ Nat.toDigits 10 record.2.length

/-- A prefix of a record. -/
def prefixItem (p : IPPrefix) : List Char :=
  ['\t'] ++ p.toText net

/-- The end of a record. -/
def endItem : List Char := ['\r', '\n']

/-- The items of a record. -/
def recordItems (record : PID × List IPPrefix) : List (List Char) :=
  headItem record :: (record.2.map (prefixItem net) ++ [endItem])

namespace GetPIDMapState

/-- The items that are left of the current record. -/
def recordLeft (data : GetPIDMapState) (record : PID × List IPPrefix) : List (List Char) :=
  match data.pidState with
  | 0 => recordItems net record
  | 1 => (record.2.drop data.j).map (prefixItem net) ++ [endItem]
  | _ => [endItem]

/-- The items that are left. -/
def left (data : GetPIDMapState) : List (List Char) :=
  match data.pids.drop data.i with
  | [] => []
  | record :: records => data.recordLeft net record ++ records.flatMap (recordItems net)

/-- The items that are written of a record: the number in its head is whole, but its prefixes are
counted by an `unsigned int`. -/
def writtenItems (record : PID × List IPPrefix) : List (List Char) :=
  headItem record ::
    ((record.2.take (record.2.length % 2 ^ 32)).map (prefixItem net) ++ [endItem])

/-- The items that will be written of the current record. -/
def recordWritten (data : GetPIDMapState) (record : PID × List IPPrefix) : List (List Char) :=
  match data.pidState with
  | 0 => writtenItems net record
  | 1 => ((record.2.take (record.2.length % 2 ^ 32)).drop data.j).map (prefixItem net) ++ [endItem]
  | _ => [endItem]

/-- The items that will be written. The records are counted by an `unsigned int` as well. -/
def written (data : GetPIDMapState) : List (List Char) :=
  match (data.pids.take (data.pids.length % 2 ^ 32)).drop data.i with
  | [] => []
  | record :: records => data.recordWritten net record ++ records.flatMap (writtenItems net)

/-- The vectors can be indexed with an `unsigned int`. -/
structure Sized (data : GetPIDMapState) : Prop where
  pids : data.pids.length < 2 ^ 32
  prefixes : ∀ record ∈ data.pids, record.2.length < 2 ^ 32

/-- What the writer's counters satisfy between two calls. -/
structure Counting (data : GetPIDMapState) : Prop where
  state : data.pidState ≤ 2
  j : data.pidState ≠ 1 → data.j = 0
  i : data.pids.length ≤ data.i → data.pidState = 0

variable {net} {data : GetPIDMapState} {record : PID × List IPPrefix} {rsp : ResponseStream}

/-- What putting a record does: the stream takes the items of the record, and the counters stand at
what is left. -/
structure Puts (net : AddressText) (data : GetPIDMapState) (record : PID × List IPPrefix)
    (rsp : ResponseStream) (result : GetPIDMapState × ResponseStream) : Prop where
  stream : result.2 = (putAll (data.recordWritten net record) rsp).2
  whole : result.2.good = true → result.1 = { data with j := 0, pidState := 0 }
  part : result.2.good = false →
    result.1.recordWritten net record = (putAll (data.recordWritten net record) rsp).1 ∧
      ∃ j s, result.1 = { data with j, pidState := s } ∧ s ≤ 2 ∧ (s ≠ 1 → j = 0)

theorem putPrefixes_eq (net : AddressText) (prefixes : List IPPrefix) (j : Nat) (rsp : ResponseStream) :
    ∃ n, putPrefixes net prefixes j rsp = (j + n, (putAll (prefixes.map (prefixItem net)) rsp).2) ∧
      (putAll (prefixes.map (prefixItem net)) rsp).1 = (prefixes.drop n).map (prefixItem net) := by
  induction prefixes generalizing j rsp with
  | nil => exact ⟨0, rfl, rfl⟩
  | cons p prefixes ih =>
    simp only [putPrefixes, List.map_cons, putAll, put_put]
    rw [← prefixItem]
    split
    · obtain ⟨n, hput, hleft⟩ := ih (j + 1) (rsp.put (prefixItem net p)).setMark
      refine ⟨n + 1, ?_, hleft⟩
      rw [hput, Nat.add_right_comm, Nat.add_assoc]
    · exact ⟨0, rfl, rfl⟩

/-- Some of the items have been put, and the rest goes on from there. -/
theorem Puts.after {xs : List (List Char)} {data' : GetPIDMapState} {j s : Nat}
    {result : GetPIDMapState × ResponseStream} (hgood : rsp.good = true)
    (hdata : data' = { data with j, pidState := s })
    (hleft : data.recordWritten net record = xs ++ data'.recordWritten net record)
    (hxs : (putAll xs rsp).2.good = true) (h : Puts net data' record (putAll xs rsp).2 result) :
    Puts net data record rsp result := by
  have hall : putAll (data.recordWritten net record) rsp =
      putAll (data'.recordWritten net record) (putAll xs rsp).2 := by
    rw [hleft, putAll_append hgood, if_pos hxs]
  subst hdata
  obtain ⟨hstream, hwhole, hpart⟩ := h
  exact ⟨hall ▸ hstream, hwhole, hall ▸ hpart⟩

/-- The stream is exhausted before the items have been put. -/
theorem Puts.stuck {xs ys : List (List Char)} {data' : GetPIDMapState} {j s : Nat}
    (hgood : rsp.good = true) (hdata : data' = { data with j, pidState := s }) (hs : s ≤ 2)
    (hj : s ≠ 1 → j = 0) (hleft : data.recordWritten net record = xs ++ ys)
    (hxs : ¬ (putAll xs rsp).2.good = true)
    (hleft' : data'.recordWritten net record = (putAll xs rsp).1 ++ ys) :
    Puts net data record rsp (data', (putAll xs rsp).2) := by
  have hall : putAll (data.recordWritten net record) rsp =
      ((putAll xs rsp).1 ++ ys, (putAll xs rsp).2) := by
    rw [hleft, putAll_append hgood, if_neg hxs]
  refine ⟨by rw [hall], fun h => absurd h hxs, fun _ => ⟨by rw [hall, hleft'], j, s, ?_⟩⟩
  exact ⟨hdata, hs, hj⟩

/-- The stream is exhausted by the first item. -/
theorem Puts.none {item : List Char} {items : List (List Char)} (hs : data.pidState ≤ 2)
    (hj : data.pidState ≠ 1 → data.j = 0) (hleft : data.recordWritten net record = item :: items)
    (hput : ¬ (rsp.put item).good = true) : Puts net data record rsp (data, rsp.put item) := by
  have hall : putAll (data.recordWritten net record) rsp = (item :: items, rsp.put item) := by
    rw [hleft, putAll, if_neg hput]
  refine ⟨by rw [hall], fun h => absurd h hput, fun _ => ⟨by rw [hall, hleft], ?_⟩⟩
  exact ⟨data.j, data.pidState, rfl, hs, hj⟩

theorem putEnd_puts (hstate : data.pidState = 2) (hj : data.j = 0) :
    Puts net data record rsp (putEnd data rsp) := by
  have hleft : data.recordWritten net record = [endItem] := by simp [recordWritten, hstate]
  unfold putEnd
  rw [← endItem]
  dsimp only
  split
  · next hput =>
    refine ⟨?_, fun _ => by rw [← hj], fun hbad => ?_⟩
    · rw [hleft, putAll, if_pos hput, putAll]
    · exact absurd (hput.symm.trans hbad) (by decide)
  · next hput => exact .none hstate.le (fun _ => hj) hleft hput

theorem putList_puts (hgood : rsp.good = true)
    (hstate : data.pidState = 1) : Puts net data record rsp (putList net data record rsp) := by
  have hleft : data.recordWritten net record =
      ((record.2.take (record.2.length % 2 ^ 32)).drop data.j).map (prefixItem net) ++
        [endItem] := by
    simp [recordWritten, hstate]
  obtain ⟨n, hput, hrest⟩ := putPrefixes_eq net
    ((record.2.take (record.2.length % 2 ^ 32)).drop data.j) data.j rsp
  simp only [putList, hput]
  split
  · next hgood' => exact .after hgood rfl hleft hgood' (putEnd_puts rfl rfl)
  · next hbad =>
    refine .stuck hgood rfl (hstate.le.trans (by decide)) (fun h => absurd hstate h) hleft hbad ?_
    simp only [hrest, recordWritten, hstate, List.drop_drop]

theorem putHead_puts (hgood : rsp.good = true)
    (hstate : data.pidState = 0) (hj : data.j = 0) :
    Puts net data record rsp (putHead net data record rsp) := by
  have hleft : data.recordWritten net record = [headItem record] ++
      recordWritten net { data with pidState := 1 } record := by
    simp [recordWritten, hstate, hj, writtenItems]
  unfold putHead
  rw [put_put, put_put, ← List.append_assoc, ← headItem]
  dsimp only
  split
  · next hput =>
    have hall : putAll [headItem record] rsp = ([], (rsp.put (headItem record)).setMark) := by
      rw [putAll, if_pos hput, putAll]
    refine .after hgood rfl hleft (by rw [hall]; exact hput) ?_
    rw [hall]
    exact putList_puts hput rfl
  · next hput => exact .none (hstate.le.trans (Nat.zero_le _)) (fun _ => hj) hleft hput

theorem putRecord_puts (net : AddressText) (hgood : rsp.good = true)
    (hstate : data.pidState ≤ 2) (hj : data.pidState ≠ 1 → data.j = 0) :
    Puts net data record rsp (putRecord net data record rsp) := by
  unfold putRecord
  split
  · next h => exact putHead_puts hgood h (hj (by omega))
  · next h => exact putList_puts hgood h
  · next h => exact putEnd_puts h (hj (by omega))
  · next h0 h1 h2 =>
    have : data.pidState ≠ 0 := h0
    have : data.pidState ≠ 1 := h1
    have : data.pidState ≠ 2 := h2
    omega

/-- The loop over the records takes the items that are to be written. -/
theorem putRecords_spec (net : AddressText) {records : List (PID × List IPPrefix)}
    (hrecords : (data.pids.take (data.pids.length % 2 ^ 32)).drop data.i = records)
    (hgood : rsp.good = true) (hcount : data.Counting) :
    (putRecords net records data rsp).2 = (putAll (data.written net) rsp).2 ∧
      (putRecords net records data rsp).1.written net = (putAll (data.written net) rsp).1 ∧
      (putRecords net records data rsp).1.Counting ∧
      (putRecords net records data rsp).1.pids = data.pids := by
  induction records generalizing data rsp with
  | nil =>
    have hnil : data.written net = [] := by rw [written, hrecords]
    rw [hnil]
    exact ⟨rfl, hnil, hcount, rfl⟩
  | cons record records ih =>
    have hlt : data.i < data.pids.length := by
      rw [← Nat.not_le]
      intro hle
      rw [List.drop_eq_nil_of_le ((List.length_take_le' _ _).trans hle)] at hrecords
      cases hrecords
    have hwritten : data.written net =
        data.recordWritten net record ++ records.flatMap (writtenItems net) := by
      rw [written, hrecords]
    obtain ⟨hstream, hwhole, hpart⟩ := putRecord_puts net hgood hcount.state hcount.j
    rw [hwritten, putAll_append hgood, ← hstream, putRecords]
    simp only
    split
    · next hput =>
      rw [hwhole hput]
      have hnext : (data.pids.take (data.pids.length % 2 ^ 32)).drop (data.i + 1) = records := by
        rw [← List.drop_drop, hrecords]
        rfl
      obtain ⟨hstream', hrest', hcount', hpids⟩ := @ih
        { data with i := data.i + 1, j := 0, pidState := 0 } (putRecord net data record rsp).2 hnext
        hput ⟨Nat.zero_le _, fun _ => rfl, fun _ => rfl⟩
      have hitems : written net { data with i := data.i + 1, j := 0, pidState := 0 } =
          records.flatMap (writtenItems net) := by
        rw [written]
        simp only [hnext]
        cases records <;> rfl
      rw [hitems] at hstream' hrest'
      exact ⟨hstream', hrest', hcount', hpids⟩
    · next hput =>
      obtain ⟨hrest, j, s, hdata, hs, hj⟩ := hpart (by simpa using hput)
      refine ⟨rfl, ?_, ?_, by rw [hdata]⟩
      · rw [← hrest, hdata, written]
        simp only [hrecords]
      · rw [hdata]
        exact ⟨hs, hj, fun hle => absurd hle (Nat.not_le.2 hlt)⟩

/-- The writer between two calls. -/
structure Writing (pids : List (PID × List IPPrefix)) (data : GetPIDMapState) : Prop where
  pids : data.pids = pids
  count : data.Counting

/-- A block is filled with the items that are to be written, however large it is. -/
theorem getPIDMapWrite_fill {pids : List (PID × List IPPrefix)} (h : data.Writing pids) (max : Nat) :
    (data.written net = [] → getPIDMapWrite net data max = (data, none)) ∧
      (data.written net ≠ [] →
        (getPIDMapWrite net data max).2 = some (fill max (data.written net)).1.flatten ∧
        (getPIDMapWrite net data max).1.written net = (fill max (data.written net)).2 ∧
        (getPIDMapWrite net data max).1.Writing pids) := by
  have hlen : (data.pids.take (data.pids.length % 2 ^ 32)).length = data.pids.length % 2 ^ 32 := by
    rw [List.length_take, Nat.min_eq_left (Nat.mod_le _ _)]
  have hdropped := @List.drop_eq_nil_iff _ (data.pids.take (data.pids.length % 2 ^ 32)) data.i
  rw [hlen] at hdropped
  have hnil : data.written net = [] ↔ data.pids.length % 2 ^ 32 ≤ data.i := by
    rw [← hdropped, written]
    split
    · next hdrop => exact ⟨fun _ => hdrop, fun _ => rfl⟩
    · next record records hdrop =>
      rw [hdrop]
      refine ⟨fun hnil => ?_, nofun⟩
      have := (List.append_eq_nil_iff.1 hnil).1
      unfold recordWritten writtenItems at this
      split at this <;> simp at this
  constructor
  · intro hw
    rw [getPIDMapWrite, if_pos (hnil.1 hw)]
  · intro hw
    obtain ⟨hstream, hrest, hcount, hsame⟩ := putRecords_spec net rfl (clean_start max).good h.count
    obtain ⟨hfill, hmarked⟩ := (clean_start max).putAll_eq_fill (data.written net)
    have hroom : room { size := max } = max := rfl
    rw [hroom] at hfill hmarked
    rw [getPIDMapWrite, if_neg fun hle => hw (hnil.2 hle)]
    dsimp only
    exact ⟨by rw [hstream, hmarked]; rfl, hrest.trans hfill, hsame.trans h.pids, hcount⟩

/-- The callback fills its blocks with the items that are to be written. -/
theorem fills_getPIDMapWrite (pids : List (PID × List IPPrefix)) :
    Fills (getPIDMapWrite net) (written net) (Writing pids) where
  done data max h hw := by rw [(getPIDMapWrite_fill h max).1 hw]
  block data max item items h hw hmax := by
    refine (getPIDMapWrite_fill h max).2 ?_
    rw [hw]
    exact List.cons_ne_nil _ _

theorem writtenItems_eq (hsize : record.2.length < 2 ^ 32) :
    writtenItems net record = recordItems net record := by
  rw [writtenItems, Nat.mod_eq_of_lt hsize, List.take_length, recordItems]

/-- Vectors that can be indexed are written whole. -/
theorem written_eq_left (hpids : data.pids.length < 2 ^ 32)
    (hprefixes : ∀ record ∈ data.pids, record.2.length < 2 ^ 32) :
    data.written net = data.left net := by
  have hmem : ∀ record ∈ data.pids.drop data.i, record.2.length < 2 ^ 32 :=
    fun record hrecord => hprefixes record (List.mem_of_mem_drop hrecord)
  rw [written, left, Nat.mod_eq_of_lt hpids, List.take_length]
  split
  · rfl
  · next record records hdrop =>
    rw [hdrop] at hmem
    have hrecord : data.recordWritten net record = data.recordLeft net record := by
      have hsize := hmem record List.mem_cons_self
      simp only [recordWritten, recordLeft, writtenItems_eq hsize, Nat.mod_eq_of_lt hsize,
        List.take_length]
    have hrecords : records.flatMap (writtenItems net) = records.flatMap (recordItems net) :=
      List.flatMap_congr fun r hr => writtenItems_eq (hmem r (List.mem_cons_of_mem _ hr))
    rw [hrecord, hrecords]

end GetPIDMapState

end Writer

/-! ## The reader -/

section Reader

open Response

variable {net : AddressText} {stack : Nat → Nat} {finished : Bool} {s : Response.PIDMap} {ws : List Char}

theorem readToken_token {token : List Char} (hws : ∀ c ∈ ws, isSpace c = true)
    (ht : IsToken token) {c : Char} (hc : isSpace c = true) (more : List Char) :
    readToken isSpace finished (ws ++ (token ++ c :: more)) = some (token, c :: more) := by
  have hhead : ∀ c' ∈ (token ++ c :: more).head?, isSpace c' = false := by
    intro c' hc'
    cases token with
    | nil => exact absurd rfl ht.ne_nil
    | cons d token => cases hc'; exact ht.noSpace c' (by simp)
  have hp : ∀ c ∈ token, (!isSpace c) = true := fun c hc => by rw [ht.noSpace c hc]; rfl
  have hm : ∀ c' ∈ (c :: more).head?, (!isSpace c') = false := by
    intro c' hc'
    cases hc'
    rw [hc]
    rfl
  rw [readToken_eq_some, dropWhile_space hws hhead, takeWhile_append_stop hp hm,
    dropWhile_append_stop hp hm]
  exact ⟨rfl, rfl, by simp, fun _ => List.cons_ne_nil _ _⟩

/-- One token of a PID map. -/
theorem consume_token {token : List Char} {commit : Response.PIDMap → Response.PIDMap}
    (hrecord : (pidMapReader net stack).record s token = .done commit)
    (ws : List Char) (hws : ∀ c ∈ ws, isSpace c = true) (ht : IsToken token) {c : Char}
    (hc : isSpace c = true) (more : List Char) :
    (pidMapReader net stack).consume finished (ws ++ (token ++ c :: more)) s =
      (pidMapReader net stack).consume finished (c :: more) (commit s) := by
  have hsep : (pidMapReader net stack).sep = isSpace := rfl
  rw [TokenReader.consume_eq, TokenReader.body, TokenProg.run, hsep, readToken_token hws ht hc]
  simp only [hrecord, TokenProg.run, TokenReader.applyAll, List.foldl_nil]

/-- White space between two records. -/
theorem consume_space (hstate : s.pidState = 0) (hws : ∀ c ∈ ws, isSpace c = true) :
    (pidMapReader net stack).consume finished ws s = .ok ws s := by
  have hsep : (pidMapReader net stack).sep = isSpace := rfl
  have hnone : readToken isSpace finished ws = none := by
    rw [readToken, List.dropWhile_eq_nil_iff.2 hws]
    rfl
  rw [TokenReader.consume_eq, TokenReader.body, TokenProg.run, hsep, hnone]
  simp [pidMapReader, hstate, TokenReader.applyAll]

/-- The output of the reader: the PIDs with their sets of prefixes. -/
def pidMapView (s : Response.PIDMap) : List (PID × Finset IPPrefix) :=
  s.out.map fun r => (r.pid, r.prefixes.image Prod.fst)

/-- The prefixes of a record. The last one ends the record, since there are as many as its head
says. -/
theorem consume_prefixes (hnet : net.Numeric) {prefixes : List IPPrefix} (hne : prefixes ≠ [])
    (hnodup : prefixes.Nodup) (hstate : s.pidState = 2)
    (hnew : ∀ p ∈ prefixes, p ∉ s.curRecord.prefixes.image Prod.fst)
    (hcount : s.curRecord.prefixes.card + prefixes.length = s.prefixCount) (more : List Char) :
    ∃ s', (pidMapReader net stack).consume finished
        (prefixes.flatMap (prefixItem net) ++ '\r' :: more) s =
          (pidMapReader net stack).consume finished ('\r' :: more) s' ∧
      s'.pidState = 0 ∧
      pidMapView s' = pidMapView s ++
        [(s.curRecord.pid, s.curRecord.prefixes.image Prod.fst ∪ prefixes.toFinset)] := by
  induction prefixes generalizing s with
  | nil => exact absurd rfl hne
  | cons p prefixes ih =>
    have hp : p ∉ s.curRecord.prefixes.image Prod.fst := hnew p (by simp)
    have hcard : (insert (readPrefix stack s.constructed p) s.curRecord.prefixes).card =
        s.curRecord.prefixes.card + 1 := by
      apply Finset.card_insert_of_notMem
      intro hmem
      exact hp (Finset.mem_image_of_mem Prod.fst hmem)
    have himage : (insert (readPrefix stack s.constructed p) s.curRecord.prefixes).image Prod.fst =
        insert p (s.curRecord.prefixes.image Prod.fst) :=
      Finset.image_insert _ _ _
    have hrecord : (pidMapReader net stack).record s (p.toText net) =
        .done (Response.PIDMap.addPrefix stack p) := by
      simp [pidMapReader, hstate, prefixOf, castPrefix_toText hnet]
    -- the text goes on with a tab or with the end of the line
    obtain ⟨c, tail, htail, hc⟩ : ∃ c tail,
        prefixes.flatMap (prefixItem net) ++ '\r' :: more = c :: tail ∧ isSpace c = true := by
      cases prefixes with
      | nil => exact ⟨'\r', more, rfl, rfl⟩
      | cons q prefixes => exact ⟨'\t', _, rfl, rfl⟩
    have hstep : (pidMapReader net stack).consume finished
        ((p :: prefixes).flatMap (prefixItem net) ++ '\r' :: more) s =
          (pidMapReader net stack).consume finished
            (prefixes.flatMap (prefixItem net) ++ '\r' :: more) (Response.PIDMap.addPrefix stack p s) := by
      rw [List.flatMap_cons, prefixItem, List.append_assoc, List.append_assoc, htail]
      exact consume_token hrecord ['\t'] (by simp [isSpace]) (IPPrefix.isToken_toText hnet p) hc tail
    rw [hstep]
    simp only [List.length_cons] at hcount
    cases prefixes with
    | nil =>
      refine ⟨_, rfl, ?_, ?_⟩
      · simp only [Response.PIDMap.addPrefix, Response.PIDMap.endRecord, hcard]
        rw [if_neg (by simp only [List.length_nil] at hcount; omega)]
      · simp only [Response.PIDMap.addPrefix, Response.PIDMap.endRecord, hcard, pidMapView]
        rw [if_neg (by simp only [List.length_nil] at hcount; omega)]
        simp only [List.map_append, List.map_cons, List.map_nil, himage]
        simp
    | cons q prefixes =>
      have hadd : Response.PIDMap.addPrefix stack p s = { s with
          curRecord := { s.curRecord with
            prefixes := insert (readPrefix stack s.constructed p) s.curRecord.prefixes }
          constructed := s.constructed + 1 } := by
        simp only [Response.PIDMap.addPrefix, Response.PIDMap.endRecord, hcard]
        rw [if_pos (by simp only [List.length_cons] at hcount; omega)]
      rw [List.nodup_cons] at hnodup
      obtain ⟨s', hconsume, hstate', hview⟩ := ih (List.cons_ne_nil _ _) hnodup.2
        (show (Response.PIDMap.addPrefix stack p s).pidState = 2 by rw [hadd]; exact hstate)
        (by
          intro p' hp'
          rw [hadd]
          simp only [himage, Finset.mem_insert, not_or]
          exact ⟨fun heq => hnodup.1 (heq ▸ hp'), hnew p' (List.mem_cons_of_mem _ hp')⟩)
        (by
          rw [hadd]
          simp only [hcard, List.length_cons] at hcount ⊢
          omega)
      refine ⟨s', hconsume, hstate', hview.trans ?_⟩
      rw [hadd]
      simp only [himage, pidMapView, List.toFinset_cons, Finset.insert_union, Finset.union_insert]
      rw [Finset.insert_comm]

/-- A record. -/
theorem consume_record (stack : Nat → Nat) (finished : Bool) (hnet : net.Numeric)
    {record : PID × List IPPrefix} (hpid : record.1.Printable) (hsize : record.2.length < 2 ^ 32)
    (hnodup : record.2.Nodup) (hstate : s.pidState = 0) (hws : ∀ c ∈ ws, isSpace c = true) (more : List Char) :
    ∃ s', (pidMapReader net stack).consume finished
        (ws ++ ((recordItems net record).flatten ++ more)) s =
          (pidMapReader net stack).consume finished (endItem ++ more) s' ∧
      s'.pidState = 0 ∧
      pidMapView s' = pidMapView s ++ [(record.1, record.2.toFinset)] := by
  obtain ⟨pid, prefixes⟩ := record
  obtain ⟨c, tail, htail, hc⟩ : ∃ c tail,
      prefixes.flatMap (prefixItem net) ++ (endItem ++ more) = c :: tail ∧ isSpace c = true := by
    cases prefixes with
    | nil => exact ⟨'\r', _, rfl, rfl⟩
    | cons q prefixes => exact ⟨'\t', _, rfl, rfl⟩
  have htext : (recordItems net (pid, prefixes)).flatten ++ more =
      pid.toText ++ '\t' :: (Nat.toDigits 10 prefixes.length ++
        (prefixes.flatMap (prefixItem net) ++ (endItem ++ more))) := by
    simp [recordItems, headItem, List.flatMap_def]
  have hfirst : (pidMapReader net stack).record s pid.toText = .done (Response.PIDMap.setPID pid) := by
    simp [pidMapReader, hstate, pidOf, castPID_toText hpid]
  have hsecond : (pidMapReader net stack).record (Response.PIDMap.setPID pid s)
      (Nat.toDigits 10 prefixes.length) = .done (Response.PIDMap.setCount prefixes.length) := by
    simp [pidMapReader, Response.PIDMap.setPID, unsignedOf, castUnsigned_toDigits hsize]
  have hhead : (pidMapReader net stack).consume finished
      (ws ++ ((recordItems net (pid, prefixes)).flatten ++ more)) s =
        (pidMapReader net stack).consume finished
          (prefixes.flatMap (prefixItem net) ++ (endItem ++ more))
          (Response.PIDMap.setCount prefixes.length (Response.PIDMap.setPID pid s)) := by
    rw [htext, htail, consume_token hfirst ws hws hpid.isToken rfl]
    exact consume_token hsecond ['\t'] (by simp [isSpace]) (IStream.isToken_toDigits _) hc tail
  rw [hhead]
  cases prefixes with
  | nil =>
    refine ⟨_, rfl, rfl, ?_⟩
    simp [Response.PIDMap.setCount, Response.PIDMap.setPID, Response.PIDMap.endRecord, pidMapView]
  | cons p prefixes =>
    have hcount : Response.PIDMap.setCount (p :: prefixes).length (Response.PIDMap.setPID pid s) =
        { s with curRecord := ⟨pid, ∅⟩, prefixCount := (p :: prefixes).length, pidState := 2 } := by
      simp [Response.PIDMap.setCount, Response.PIDMap.setPID, Response.PIDMap.endRecord]
    rw [hcount]
    obtain ⟨s', hconsume, hstate', hview⟩ := consume_prefixes
      (s := { s with curRecord := ⟨pid, ∅⟩, prefixCount := (p :: prefixes).length, pidState := 2 })
      hnet (List.cons_ne_nil p prefixes) hnodup rfl (by simp) (by simp) ('\n' :: more)
    refine ⟨s', hconsume, hstate', hview.trans ?_⟩
    simp [pidMapView]

/-- All records. -/
theorem consume_records (stack : Nat → Nat) (finished : Bool) (hnet : net.Numeric)
    {records : List (PID × List IPPrefix)} (hpids : ∀ record ∈ records, record.1.Printable)
    (hsizes : ∀ record ∈ records, record.2.length < 2 ^ 32)
    (hnodup : ∀ record ∈ records, record.2.Nodup) (hstate : s.pidState = 0)
    (ws : List Char) (hws : ∀ c ∈ ws, isSpace c = true) :
    ∃ ws' s', (pidMapReader net stack).consume finished
        (ws ++ (records.flatMap (recordItems net)).flatten) s = .ok ws' s' ∧
      (∀ c ∈ ws', isSpace c = true) ∧ s'.pidState = 0 ∧
      pidMapView s' = pidMapView s ++ records.map fun x => (x.1, x.2.toFinset) := by
  induction records generalizing s ws with
  | nil =>
    refine ⟨ws, s, ?_, hws, hstate, by simp⟩
    simpa using consume_space hstate hws
  | cons record records ih =>
    obtain ⟨s', hconsume, hstate', hview⟩ := consume_record stack finished hnet
      (hpids record (by simp)) (hsizes record (by simp)) (hnodup record (by simp)) hstate hws
      (records.flatMap (recordItems net)).flatten
    obtain ⟨ws'', s'', hrest, hws'', hstate'', hview'⟩ := ih
      (fun x hx => hpids x (List.mem_cons_of_mem _ hx))
      (fun x hx => hsizes x (List.mem_cons_of_mem _ hx))
      (fun x hx => hnodup x (List.mem_cons_of_mem _ hx)) hstate' endItem (by simp [endItem, isSpace])
    refine ⟨ws'', s'', ?_, hws'', hstate'', ?_⟩
    · rw [List.flatMap_cons, List.flatten_append, hconsume, hrest]
    · rw [hview', hview, List.map_cons, List.append_assoc]
      rfl

/-- The text of the records in any chunks. -/
theorem read_records (hnet : net.Numeric) (stack : Nat → Nat)
    {records : List (PID × List IPPrefix)} (hpids : ∀ record ∈ records, record.1.Printable)
    (hsizes : ∀ record ∈ records, record.2.length < 2 ^ 32)
    (hnodup : ∀ record ∈ records, record.2.Nodup) {chunks : List (List Char)}
    (hchunks : chunks.flatten = (records.flatMap (recordItems net)).flatten) :
    ∃ s, ResponseReader.read (pidMapReader net stack).consume { state := {} } chunks =
        some (s, false) ∧
      pidMapView s = records.map fun x => (x.1, x.2.toFinset) := by
  obtain ⟨ws, s, hconsume, hws, hstate, hview⟩ := consume_records (s := {}) stack false hnet hpids
    hsizes hnodup rfl [] (by simp)
  refine ⟨s, ?_, hview⟩
  rw [TokenReader.read_flatten (absorbing_of_empty _), hchunks]
  simp only [ResponseReader.read, ResponseReader.process, ResponseReader.finish, hconsume,
    Bool.false_eq_true, if_false, consume_space hstate hws]

end Reader

/-! ## The round trip -/

/-- The records of the response: the PIDs are those of the request or of the map, and each has the
prefixes of the map or none. -/
theorem mem_getPIDMapFinish {trie : PatriciaTrie PID} {requested : List PID}
    {record : PID × List IPPrefix} (h : record ∈ (getPIDMapFinish trie requested).pids) :
    (record.1 ∈ requested ∨ record.1 ∈ trie.enumerateValues) ∧
      (record.2 = [] ∨ record.2 = trie.getPrefixes record.1) := by
  obtain ⟨i, hi⟩ := List.mem_iff_getElem?.1 h
  rw [getPIDMapFinish, enumerate_get] at hi
  obtain ⟨x, hx, rfl⟩ := Option.map_eq_some_iff.1 hi
  have hmem := List.mem_of_getElem? hx
  have hstart : (x.1 ∈ requested ∨ x.1 ∈ trie.enumerateValues) ∧ x.2 = [] := by
    unfold enumStart at hmem
    split at hmem
    · obtain ⟨v, hv, rfl⟩ := List.mem_map.1 hmem
      exact ⟨.inr hv, rfl⟩
    · obtain ⟨pid, hpid, rfl⟩ := List.mem_map.1 hmem
      exact ⟨.inl hpid, rfl⟩
  refine ⟨hstart.1, ?_⟩
  simp only [hstart.2, List.nil_append]
  split
  · exact .inr rfl
  · exact .inl rfl

/-- Whatever operations a PID map has gone through and whatever PIDs a request lists, a client reads
the records of the response with the same PIDs and the same sets of prefixes, in blocks and chunks of
any sizes. -/
theorem pidMap_read_as_written {net : AddressText} (hnet : net.Numeric) (stack : Nat → Nat)
    (ops : List (Behind × Op PID)) (requested : List PID)
    (hpids : ∀ pid, pid ∈ requested ∨ pid ∈ (run ops empty).enumerateValues → pid.Printable)
    (hsized : (getPIDMapFinish (run ops empty) requested).Sized) (sizes : Nat → Nat)
    (hfit : ∀ record ∈ (getPIDMapFinish (run ops empty) requested).pids,
      ∀ item ∈ recordItems net record, ∀ k, item.length ≤ sizes k) :
    let data := getPIDMapFinish (run ops empty) requested
    (∃ n, (blocks (getPIDMapWrite net) data ((List.range n).map sizes)).isSome) ∧
      ∀ n text, blocks (getPIDMapWrite net) data ((List.range n).map sizes) = some text →
        ∀ chunks : List (List Char), chunks.flatten = text →
          ∃ s, Response.ResponseReader.read (Response.pidMapReader net stack).consume
              { state := {} } chunks = some (s, false) ∧
            pidMapView s = data.pids.map fun x => (x.1, x.2.toFinset) := by
  intro data
  have hfills : Fills (getPIDMapWrite net) (GetPIDMapState.written net)
      (GetPIDMapState.Writing data.pids) :=
    GetPIDMapState.fills_getPIDMapWrite data.pids
  have hstart : GetPIDMapState.Writing data.pids data :=
    ⟨rfl, Nat.zero_le _, fun _ => rfl, fun _ => rfl⟩
  have hleft : data.written net = data.pids.flatMap (recordItems net) := by
    rw [GetPIDMapState.written_eq_left hsized.pids hsized.prefixes, GetPIDMapState.left]
    cases data.pids <;> rfl
  have hpacks : ∀ n, Packs ((List.range n).map sizes) (data.written net) := by
    intro n
    apply packs_of_forall
    intro max hmax item hitem
    obtain ⟨k, -, rfl⟩ := List.mem_map.1 hmax
    rw [hleft] at hitem
    obtain ⟨record, hrecord, hitem⟩ := List.mem_flatMap.1 hitem
    exact hfit record hrecord item hitem k
  refine ⟨⟨(data.written net).length + 1, ?_⟩, ?_⟩
  · exact hfills.isSome_of_lt hstart (hpacks _) (by simp)
  · intro n text htext chunks hchunks
    apply read_records hnet stack
    · exact fun record hrecord => hpids _ (mem_getPIDMapFinish hrecord).1
    · exact hsized.prefixes
    · intro record hrecord
      rcases (mem_getPIDMapFinish hrecord).2 with h | h
      · rw [h]
        exact List.nodup_nil
      · rw [h]
        exact nodup_getPrefixes (inv_run inv_empty ops) _
    · rw [hchunks, hfills.eq_flatten hstart (hpacks n) htext, hleft]

/-- Texts of addresses that spell `10.0.0.0` and `10.1.0.0` as the C library does, and all others bit by
bit. -/
def tenText : AddressText where
  getnameinfo family bits :=
    if family = .inet ∧ bits = ten8.address then "10.0.0.0".toList
    else if family = .inet ∧ bits = tenOne16.address then "10.1.0.0".toList
    else (if family = .inet then 'a' else 'b') :: bits.map fun b => if b then '1' else '0'
  getaddrinfo text :=
    if text = "10.0.0.0".toList then some (.inet, ten8.address)
    else if text = "10.1.0.0".toList then some (.inet, tenOne16.address)
    else text.head?.map fun c => (if c = 'a' then .inet else .inet6, text.tail.map (· == '1'))

theorem tenText_inverse (family : Family) (bits : List Bool) :
    tenText.getaddrinfo (tenText.getnameinfo family bits) = some (family, bits) := by
  have hbits : ∀ bits : List Bool,
      (bits.map fun b => if b then '1' else '0').map (· == '1') = bits := by
    intro bits
    induction bits with
    | nil => rfl
    | cons b bits ih => cases b <;> simpa using ih
  by_cases h : family = .inet ∧ bits = ten8.address
  · have hname : tenText.getnameinfo family bits = "10.0.0.0".toList := if_pos h
    have haddr : tenText.getaddrinfo "10.0.0.0".toList = some (.inet, ten8.address) := by
      simp only [tenText, if_true]
    rw [hname, haddr, h.1, h.2]
  by_cases h' : family = .inet ∧ bits = tenOne16.address
  · have hname : tenText.getnameinfo family bits = "10.1.0.0".toList := by
      simp only [tenText, if_neg h, if_pos h']
    have haddr : tenText.getaddrinfo "10.1.0.0".toList = some (.inet, tenOne16.address) := by
      decide
    rw [hname, haddr, h'.1, h'.2]
  · have hname : tenText.getnameinfo family bits =
        (if family = .inet then 'a' else 'b') :: bits.map fun b => if b then '1' else '0' := by
      simp only [tenText, if_neg h, if_neg h']
    have hne : ∀ digit rest, digit.isDigit = true →
        tenText.getnameinfo family bits ≠ digit :: rest := by
      intro digit rest hdigit heq
      rw [hname] at heq
      rw [← (List.cons.inj heq).1] at hdigit
      cases family <;> exact absurd hdigit (by decide)
    have haddr : tenText.getaddrinfo (tenText.getnameinfo family bits) = _ :=
      (if_neg (hne '1' "0.0.0.0".toList rfl)).trans (if_neg (hne '1' "0.1.0.0".toList rfl))
    rw [haddr, hname, List.head?_cons, List.tail_cons, Option.map_some, hbits]
    cases family <;> rfl

theorem tenText_numeric : tenText.Numeric where
  inverse family bits _ := tenText_inverse family bits
  ne_nil family bits _ := by
    simp only [tenText]
    split
    · exact List.cons_ne_nil _ _
    split <;> exact List.cons_ne_nil _ _
  chars family bits _ := by
    have hten : "10.0.0.0".toList ⊆ "0123456789abcdef.:".toList := by decide
    have htenOne : "10.1.0.0".toList ⊆ "0123456789abcdef.:".toList := by decide
    simp only [tenText]
    split
    · exact fun c hc => hten hc
    split
    · exact fun c hc => htenOne hc
    · intro c hc
      simp only [List.mem_cons, List.mem_map] at hc
      rcases hc with rfl | ⟨b, -, rfl⟩
      · split <;> decide
      · split <;> decide

/-- The PID `1.i.isp` gets two prefixes, one of which lies in the prefix of `2.e.isp`. -/
def tenOps : List (Behind × Op PID) :=
  [(fun _ _ => false, .add ten16 ⟨"isp", 1, false⟩), (fun _ _ => false, .add ten8 ⟨"isp", 2, true⟩),
    (fun _ _ => false, .add tenOne16 ⟨"isp", 1, false⟩)]

/-- The records of the two PIDs, in blocks of 16 bytes. -/
theorem pidMap_read_as_written_ten :
    (getPIDMapFinish (run tenOps empty) []).pids =
        [(⟨"isp", 1, false⟩, [ten16, tenOne16]), (⟨"isp", 2, true⟩, [ten8])] ∧
      ∀ n text, blocks (getPIDMapWrite tenText) (getPIDMapFinish (run tenOps empty) [])
          ((List.range n).map fun _ => 16) = some text →
        ∃ s, Response.ResponseReader.read (Response.pidMapReader tenText fun _ => 0).consume
            { state := {} } [text] = some (s, false) ∧
          pidMapView s = [(⟨"isp", 1, false⟩, {ten16, tenOne16}), (⟨"isp", 2, true⟩, {ten8})] := by
  have hpids : (getPIDMapFinish (run tenOps empty) []).pids =
      [(⟨"isp", 1, false⟩, [ten16, tenOne16]), (⟨"isp", 2, true⟩, [ten8])] := by decide +kernel
  have hprintable : ∀ pid : PID, pid ∈ [] ∨ pid ∈ (run tenOps empty).enumerateValues →
      pid.Printable := by
    have hvalues : (run tenOps empty).enumerateValues =
        [⟨"isp", 1, false⟩, ⟨"isp", 2, true⟩] := by decide +kernel
    have hall : ∀ pid ∈ [(⟨"isp", 1, false⟩ : PID), ⟨"isp", 2, true⟩], pid.Printable := by
      intro pid hpid
      simp only [List.mem_cons, List.not_mem_nil, or_false] at hpid
      rcases hpid with rfl | rfl
      · exact ⟨by decide, by decide⟩
      · exact ⟨by decide, by decide⟩
    rw [hvalues]
    exact fun pid hpid => hall pid (hpid.resolve_left List.not_mem_nil)
  have hsized : (getPIDMapFinish (run tenOps empty) []).Sized :=
    ⟨by rw [hpids]; decide, by rw [hpids]; decide⟩
  have hfit : ∀ record ∈ (getPIDMapFinish (run tenOps empty) []).pids,
      ∀ item ∈ recordItems tenText record, ∀ _ : Nat, item.length ≤ 16 := by
    have hitems : ∀ record ∈ (getPIDMapFinish (run tenOps empty) []).pids,
        ∀ item ∈ recordItems tenText record, item.length ≤ 16 := by
      rw [hpids]
      decide +kernel
    exact fun record hrecord item hitem _ => hitems record hrecord item hitem
  refine ⟨hpids, fun n text htext => ?_⟩
  obtain ⟨s, hread, hview⟩ := (pidMap_read_as_written tenText_numeric (fun _ => 0) _ [] hprintable
    hsized (fun _ => 16) hfit).2 n text htext [text] (by simp)
  refine ⟨s, hread, ?_⟩
  rw [hview, hpids]
  decide +kernel

end Alto.Portal
