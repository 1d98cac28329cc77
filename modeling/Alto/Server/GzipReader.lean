import Alto.Server.ContentReader

/-!
# The content reader of a compressed response

`ContentReaderState` (`common-server/src/lib/rest_request_state.cpp`) for a client that accepts gzip.
The compressor is zlib's and a parameter.
-/

namespace Alto.Server

/-- A `z_stream`, and `deflate` on it: from the input, the room for output and whether the flush mode is
`Z_FINISH`, the stream afterwards, the number of bytes it has taken, the bytes it has made, and whether
it returns `Z_STREAM_END`. -/
structure Deflater (Z : Type) where
  init : Z
  deflate : Z → List Char → Nat → Bool → Z × Nat × List Char × Bool

/-- `ContentReaderState` with `gzip_`, with the data of its callback. -/
structure GzipReaderState (Z D : Type) where
  callbackData : D
  buffer : List Char := []
  callbackFinished : Bool := false
  zstrm : Z
  zFinished : Bool := false

namespace GzipReaderState

variable {Z D : Type}

/-- `ContentReaderState::process_gzip`. -/
def processGzip (zlib : Deflater Z) (r : GzipReaderState Z D) (max : Nat) :
    GzipReaderState Z D × Option (List Char) :=
  if r.zFinished then (r, none)
  else
    let (zstrm, taken, bytes, finished) := zlib.deflate r.zstrm r.buffer max r.buffer.isEmpty
    ({ r with zstrm, zFinished := finished, buffer := r.buffer.drop taken }, some bytes)

/-- The first part of `ContentReaderState::process`: the callback is asked for more data. -/
def refill (callbackWrite : D → Nat → D × Option (List Char)) (r : GzipReaderState Z D) (max : Nat) :
    GzipReaderState Z D :=
  if r.callbackFinished then r
  else
    match callbackWrite r.callbackData max with
    | (data, none) => { r with callbackData := data, callbackFinished := true }
    | (data, some bytes) => { r with callbackData := data, buffer := r.buffer ++ bytes }

/-- `ContentReaderState::process`. -/
def process (zlib : Deflater Z) (callbackWrite : D → Nat → D × Option (List Char))
    (r : GzipReaderState Z D) (max : Nat) : GzipReaderState Z D × Option (List Char) :=
  (r.refill callbackWrite max).processGzip zlib max

/-- The compressed response: the blocks up to the first answer -1, where a block may be empty. It is
`none` if there is no such answer among the first blocks. -/
def respond (zlib : Deflater Z) (callbackWrite : D → Nat → D × Option (List Char)) :
    GzipReaderState Z D → List Nat → Option (List Char)
  | _, [] => none
  | r, max :: sizes =>
    match r.process zlib callbackWrite max with
    | (_, none) => some []
    | (r, some block) => (respond zlib callbackWrite r sizes).map (block ++ ·)

end GzipReaderState

end Alto.Server
