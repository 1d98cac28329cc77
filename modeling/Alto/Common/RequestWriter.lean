import Alto.Common.IStream
import Alto.Lib.StdMap

/-!
# The writers of requests

`RequestWriter` (`common/cpp/src/lib/protocol/parsing.cpp`) and `RequestPDistanceWriter`
(`common/cpp/src/include/p4p/protocol-portal/detail/parsing.h`). A character stands for one byte. A
call of `write` that returns false is `none`.
-/

namespace Alto.Request

open Lib

/-! ## The base class -/

/-- The buffer of a call of `process`: `buffer_len_`, the bytes up to `buffer_pos_`, and
`buffer_mark_`. -/
structure Buffer where
  len : Nat
  written : List Char := []
  mark : Nat := 0
deriving DecidableEq, Repr

namespace Buffer

/-- `RequestWriter::write` of a string. -/
def write (buf : Buffer) (s : List Char) : Option Buffer :=
  if buf.written.length + s.length > buf.len then none
  else some { buf with written := buf.written ++ s }

/-- `RequestWriter::write_checkpoint`. -/
def writeCheckpoint (buf : Buffer) : Buffer :=
  { buf with mark := buf.written.length }

/-- The bytes that `process` returns. -/
def marked (buf : Buffer) : List Char := buf.written.take buf.mark

end Buffer

/-- `p4p_token_cast<std::string>` of a value with this text. The texts of numbers and PIDs start with
a digit, so there is always a token. -/
def castString (text : List Char) : List Char :=
  (IStream.getString { rest := text }).1.getD []

/-- `RequestWriter::write` of a `PID`. -/
def Buffer.writePID (buf : Buffer) (p : PID) : Option Buffer := buf.write (castString p.toText)

/-- `RequestWriter::write` of an `unsigned long`. -/
def Buffer.writeNumber (buf : Buffer) (n : Nat) : Option Buffer :=
  buf.write (castString (Nat.toDigits 10 n))

/-- `RequestWriter::write_list` of PIDs. -/
def Buffer.writeList (preSep : List Char) : List PID → Buffer → Option Buffer
  | [], buf => some buf
  | p :: ps, buf => do
    let buf ← buf.write preSep
    let buf ← buf.writePID p
    writeList preSep ps buf

/-! ## Requests for p-distances -/

/-- `RequestPDistanceWriter`, with the records between its iterators, and `finished_` of the base
class. -/
structure RequestPDistanceWriter where
  records : List (PID × StdSet PID)
  reverse : Bool
  finished : Bool := false

/-- The body of the loop of `produce`, up to the checkpoint. -/
def writeRecord (reverse : Bool) (record : PID × StdSet PID) (buf : Buffer) : Option Buffer := do
  let buf ← buf.writePID record.1
  let buf ← buf.write ['\t']
  let buf ← buf.write (if reverse then "inc-reverse".toList else "no-reverse".toList)
  let buf ← buf.write ['\t']
  let buf ← buf.writeNumber record.2.size
  let buf ← Buffer.writeList ['\t'] record.2.toList buf
  buf.write ['\r', '\n']

/-- `RequestPDistanceWriter::produce`: the records that are left, the buffer and the result. -/
def produce (reverse : Bool) : List (PID × StdSet PID) → Buffer →
    List (PID × StdSet PID) × Buffer × Bool
  | [], buf => ([], buf, true)
  | record :: records, buf =>
    match writeRecord reverse record buf with
    | some buf => produce reverse records buf.writeCheckpoint
    | none => (record :: records, buf, false)

/-- `RequestWriter::process` with a buffer of `len` bytes. No bytes at all are the return value 0,
which the client takes for the end of the request: `none`. -/
def process (writer : RequestPDistanceWriter) (len : Nat) :
    RequestPDistanceWriter × Option (List Char) :=
  if writer.finished then (writer, none)
  else
    let (records, buf, finished) := produce writer.reverse writer.records { len }
    ({ writer with records, finished }, if buf.marked.isEmpty then none else some buf.marked)

/-- The writer for a map from sources to sets of destinations. -/
def RequestPDistanceWriter.ofMap (pids : StdMap PID (StdSet PID)) (reverse : Bool) :
    RequestPDistanceWriter where
  records := pids.toList
  reverse := reverse

/-! ## The complete request -/

/-- The text of a record. -/
def recordText (reverse : Bool) (record : PID × StdSet PID) : List Char :=
  castString record.1.toText ++ ['\t'] ++
    (if reverse then "inc-reverse".toList else "no-reverse".toList) ++ ['\t'] ++
    castString (Nat.toDigits 10 record.2.size) ++
    record.2.toList.flatMap (fun dst => ['\t'] ++ castString dst.toText) ++ ['\r', '\n']

/-- The text of all records. -/
def requestText (pids : StdMap PID (StdSet PID)) (reverse : Bool) : List Char :=
  (pids.toList.map (recordText reverse)).flatten

end Alto.Request
