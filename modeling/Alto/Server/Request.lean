import Mathlib
import Alto.Common.IStream

/-!
# Receiving the body of a request

`REST_AccessHandlerCallback` and `ProtocolServerRESTBase::process_request_data`
(`common-server/src/lib/protocol_server_rest.cpp`) with `RequestStream`
(`common-server/src/include/p4pserver/marked_stream.h`). The circular buffer is the list of its
bytes. A process callback is a loop that reads from the stream and sets the mark at the end of its
body; `Turn` is one turn of the loop.
-/

namespace Alto.Server

variable {D : Type}

/-! ## Process callbacks -/

/-- The cases of the macro `REQUEST_READ_ERR`: go on behind it, return false, or go to
`invalid_argument`. -/
inductive ReadErr where
  | ignore
  | more
  | invalid
deriving DecidableEq, Repr

/-- `REQUEST_READ_ERR`. -/
def requestReadErr (finished : Bool) (req : IStream) : ReadErr :=
  if req.eof then if finished then .ignore else .more
  else if finished then .invalid
  else .more

/-- A turn of the loop of a process callback: it comes to `req.mark()`, or the callback returns, with
its result and whether it has set a response. -/
inductive Turn (D : Type) where
  | mark (req : IStream) (data : D)
  | ret (result rejected : Bool) (data : D)

/-- The end of a callback: `REQUEST_READ_ERR`, then `return true`. -/
def Turn.readErr (finished : Bool) (req : IStream) (data : D) : Turn D :=
  match requestReadErr finished req with
  | .ignore => .ret true false data
  | .more => .ret false false data
  | .invalid => .ret true true data

/-- What a process callback leaves. -/
structure Processed (D : Type) where
  result : Bool
  rejected : Bool
  data : D
  mark : Nat

/-- The loop of a process callback on a stream of `size` bytes. Every turn that comes to a mark has
read something, so there are at most `size + 1` turns. -/
def processLoop (turn : IStream → D → Turn D) (size : Nat) :
    Nat → IStream → Nat → D → Processed D
  | 0, _, mark, data => ⟨false, false, data, mark⟩
  | fuel + 1, req, mark, data =>
    match turn req data with
    | .mark req data => processLoop turn size fuel req (size - req.rest.length) data
    | .ret result rejected data => ⟨result, rejected, data, mark⟩

/-- A process callback, called with `RequestStream req(data, data_len)`. -/
def process (turn : Bool → IStream → D → Turn D) (finished : Bool) (bytes : List Char) (data : D) :
    Processed D :=
  processLoop (turn finished) bytes.length (bytes.length + 1) { rest := bytes } 0 data

/-! ## The server -/

/-- `RESTRequestState`, as far as it concerns the body. A request is rejected when its callback has
set a response. -/
structure RESTRequestState (D : Type) where
  callbackData : D
  buffer : List Char := []
  requestFinished : Bool := false
  rejected : Bool := false

/-- `ProtocolServerRESTBase::get_datalen`. -/
def getDatalen (finished : Bool) (data : List Char) : Nat :=
  if finished then data.length
  else (data.rdropWhile fun c => !isSpace c).length

/-- `ProtocolServerRESTBase::process_request_data` on the buffer, and the removal of the processed
data from it. -/
def processRequestData (turn : Bool → IStream → D → Turn D) (state : RESTRequestState D) :
    RESTRequestState D :=
  let dataLen := getDatalen state.requestFinished state.buffer
  let p := process turn state.requestFinished (state.buffer.take dataLen) state.callbackData
  let consumed := if p.result then dataLen else p.mark
  { state with
    callbackData := p.data
    rejected := p.rejected
    buffer := state.buffer.drop consumed }

/-- `REST_AccessHandlerCallback` with a piece of the body, behind the parsing of the headers: nothing
is read once there is a response. -/
def addData (turn : Bool → IStream → D → Turn D) (state : RESTRequestState D)
    (piece : List Char) : RESTRequestState D :=
  if state.rejected then state
  else processRequestData turn { state with buffer := state.buffer ++ piece }

/-- A later call of `REST_AccessHandlerCallback`: one without data ends the request. -/
def accessHandler (turn : Bool → IStream → D → Turn D) (state : RESTRequestState D)
    (piece : List Char) : RESTRequestState D :=
  if piece.isEmpty then addData turn { state with requestFinished := true } piece
  else addData turn state piece

/-- A request whose body comes in these pieces: a first call without data, which parses the headers,
one for each piece, and one without data that ends it. -/
def receive (turn : Bool → IStream → D → Turn D) (data : D) (pieces : List (List Char)) :
    RESTRequestState D :=
  (pieces ++ [[]]).foldl (accessHandler turn) (addData turn { callbackData := data } [])

end Alto.Server
