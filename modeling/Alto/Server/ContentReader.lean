import Alto.Common.IStream

/-!
# Response streams and the content reader

`ResponseStream` (`common-server/src/include/p4pserver/marked_stream.h`) and `ContentReaderState`
(`common-server/src/lib/rest_request_state.cpp`) for a response without gzip. A character stands
for one byte. A callback answers `none` for its return value -1, and otherwise the bytes that it
leaves at the start of the block.
-/

namespace Alto.Server

/-- `ResponseStream`: an array sink of `size` bytes with a mark. -/
structure ResponseStream where
  size : Nat
  written : List Char := []
  good : Bool := true
  mark : Nat := 0
deriving DecidableEq, Repr

namespace ResponseStream

/-- `operator<<` of a text. The bytes that fit are stored; the first one that does not fit makes
the sink throw "write area exhausted", which the stream turns into `badbit`. -/
def put (rsp : ResponseStream) (text : List Char) : ResponseStream :=
  if rsp.good then
    if rsp.written.length + text.length ≤ rsp.size then
      { rsp with written := rsp.written ++ text }
    else { rsp with written := (rsp.written ++ text).take rsp.size, good := false }
  else rsp

/-- `ResponseStream::mark`. -/
def setMark (rsp : ResponseStream) : ResponseStream :=
  { rsp with mark := rsp.written.length }

/-- The bytes in front of the mark: what a callback that returns `get_mark()` has produced. -/
def marked (rsp : ResponseStream) : List Char :=
  rsp.written.take rsp.mark

end ResponseStream

/-- `ContentReaderState`, with the data of its callback. -/
structure ContentReaderState (D : Type) where
  callbackData : D
  buffer : List Char := []
  callbackFinished : Bool := false
deriving Repr

namespace ContentReaderState

variable {D : Type}

/-- `ContentReaderState::process_normal`. A block has at most `max` bytes, and so has the buffer
whenever this is called, so the conversion of its size to `int` changes nothing. -/
def processNormal (r : ContentReaderState D) (max : Nat) :
    ContentReaderState D × Option (List Char) :=
  if r.buffer.isEmpty then (r, none)
  else
    let rc := min r.buffer.length max
    ({ r with buffer := r.buffer.drop rc }, some (r.buffer.take rc))

/-- `ContentReaderState::process`. -/
def process (callbackWrite : D → Nat → D × Option (List Char)) (r : ContentReaderState D)
    (max : Nat) : ContentReaderState D × Option (List Char) :=
  if r.callbackFinished then r.processNormal max
  else
    match callbackWrite r.callbackData max with
    | (data, none) => processNormal { r with callbackData := data, callbackFinished := true } max
    | (data, some bytes) =>
      processNormal { r with callbackData := data, buffer := r.buffer ++ bytes } max

/-- The response that the client receives: the blocks up to the first answer -1. It is `none` if
there is no such answer among the first blocks. -/
def respond (callbackWrite : D → Nat → D × Option (List Char)) :
    ContentReaderState D → List Nat → Option (List Char)
  | _, [] => none
  | r, max :: sizes =>
    match r.process callbackWrite max with
    | (_, none) => some []
    | (r, some block) => (respond callbackWrite r sizes).map (block ++ ·)

end ContentReaderState

end Alto.Server
