import Alto.Common.ISPPIDMap
import Alto.Common.ResponseReader

/-!
# Loading the maps of an ISP

`P4PProtocol::make_request` (`common/cpp/src/lib/protocol/protobase.cpp`) and `loadP4PInfo` of
`ISPPIDMap` (`common/cpp/src/lib/isp_pidmap.cpp`) and of `ISPPDistanceMap`
(`common/cpp/src/lib/isp_pdistancemap.cpp`), from a portal or from a file. What libcurl and the
file system do is a parameter; there is no result where the reader's behaviour is undefined.
-/

namespace Alto

open Lib Response

/-! ## Result codes -/

/-- `ERR_CONNECTION_FAILURE`. -/
def errConnectionFailure : Int := -3

/-- `ERR_PROTOCOL_FAILURE`. -/
def errProtocolFailure : Int := -4

/-- `ERR_FILE_OPEN_FAILED`. -/
def errFileOpenFailed : Int := -5

/-- `ERR_FILE_READ_FAILED`. -/
def errFileReadFailed : Int := -6

/-- `INT_MAX`. -/
def intMax : Int := 2 ^ 31 - 1

/-! ## Requests -/

/-- What libcurl does with a request: the chunks that it passes to `response_read`, whether
`curl_easy_perform` succeeds, whether the request writer has met an error, and the status code. -/
structure Transfer where
  chunks : List (List Char)
  performed : Bool := true
  requestFailed : Bool := false
  status : Option Nat := some 200

/-- The exceptions that `make_request` throws: `P4PProtocolConnectionError`, one of the writer or of
the reader, one for a missing status code, and `P4PProtocolHTTPError`. -/
inductive P4PProtocolError where
  | connection
  | request
  | response
  | noStatus
  | http (status : Nat)
deriving DecidableEq, Repr

namespace Response.ResponseReader

variable {S : Type} (consume : Bool → List Char → S → Consumed Char S)

/-- `process` for each chunk. -/
def processAll (r : ResponseReader S) (chunks : List (List Char)) : Option (ResponseReader S) :=
  chunks.foldlM (process consume) r

/-- The end of `P4PProtocol::make_request`, once the transfer is over. -/
def conclude (r : ResponseReader S) (transfer : Transfer) : Option (Except P4PProtocolError S) :=
  if ¬ transfer.performed then some (.error .connection)
  else if transfer.requestFailed then some (.error .request)
  else
    match r.finish consume with
    | none => none
    | some (_, true) => some (.error .response)
    | some (s, false) =>
      match transfer.status with
      | none => some (.error .noStatus)
      | some status => if status ≠ 200 then some (.error (.http status)) else some (.ok s)

/-- `P4PProtocol::make_request` with this reader. -/
def makeRequest (r : ResponseReader S) (transfer : Transfer) :
    Option (Except P4PProtocolError S) := do
  conclude consume (← r.processAll consume transfer.chunks) transfer

/-- `ReadResponseStream` with the buffers that `stream.read` fills: whether reading fails behind
them, or the reader has met an error. -/
def readStream (r : ResponseReader S) (buffers : List (List Char)) (broken : Bool) :
    Option (Option S) := do
  let r ← r.processAll consume buffers
  if broken then return none
  let (s, failed) ← r.finish consume
  return if failed then none else some s

end Response.ResponseReader

/-! ## Data sources -/

/-- Where a map is loaded from. -/
inductive DataSource where
  | server (transfer : Transfer)
  | file (opened : Bool) (buffers : List (List Char)) (broken : Bool)

/-- The first part of `loadP4PInfo`: the members of the reader, or the code that is returned. -/
def DataSource.fetch {S : Type} (consume : Bool → List Char → S → Consumed Char S) (state : S) :
    DataSource → Option (Except Int S)
  | .server transfer => do
    match ← ResponseReader.makeRequest consume { state } transfer with
    | .error .connection => return .error errConnectionFailure
    | .error _ => return .error errProtocolFailure
    | .ok s => return .ok s
  | .file opened buffers broken =>
    if opened then do
      match ← ResponseReader.readStream consume { state } buffers broken with
      | none => return .error errFileReadFailed
      | some s => return .ok s
    else some (.error errFileOpenFailed)

/-! ## The PID map -/

namespace ISPPIDMap

/-- `ISPPIDMap::getPIDIndex`. -/
def getPIDIndex (map : ISPPIDMap) (pid : PID) : Int :=
  match map.pids.findIdx? (· = pid) with
  | some i => i
  | none => errUnknownPID

/-- `ISPPIDMap::loadP4PInfo`: the result code and the new tables. `order` lists a set of prefixes as
its iterator does. -/
def loadP4PInfo (behind : Behind) (net : AddressText) (stack : Nat → Nat)
    (order : Finset ReadPrefix → List ReadPrefix) (source : DataSource) (map : ISPPIDMap) :
    Option (Int × ISPPIDMap) := do
  match ← source.fetch (pidMapReader net stack).consume {} with
  | .error rc => return (rc, map)
  | .ok s => return (0, ofPrefixes behind (s.out.map fun r => (r.pid, (order r.prefixes).map (·.1))))

end ISPPIDMap

/-! ## The pDistance map -/

/-- `PIDMatrixGeneric::get`; a `range_error` is `none`. -/
def Response.PIDMatrixGeneric.get {T : Type} (m : PIDMatrixGeneric T) (i j : PID) : Option T :=
  m[i]?.bind (·[j]?)

/-- `p4p::ISPPDistanceMap`. -/
structure ISPPDistanceMap where
  pdists : List (List Int)

namespace ISPPDistanceMap

/-- The matrix that `loadP4PInfo` fills for the PIDs of the ISP. An `unsigned int` is stored in an
`int`. -/
def ofMatrix (dists : PIDMatrixGeneric Nat) (indexToPid : List PID) : ISPPDistanceMap where
  pdists := indexToPid.map fun src => indexToPid.map fun dst =>
    match dists.get src dst with
    | some cost => Int.bmod cost (2 ^ 32)
    | none => intMax

/-- `ISPPDistanceMap::getPDistance`. -/
def getPDistance (map : ISPPDistanceMap) (src dst : Int) : Int :=
  if src < 0 then errUnknownPID
  else
    match map.pdists[src.toNat]? with
    | none => errUnknownPID
    | some row => if dst < 0 then errUnknownPID else row[dst.toNat]?.getD errUnknownPID

/-- `ISPPDistanceMap::getPDistances`: the code, and the row where it is 0. -/
def getPDistances (map : ISPPDistanceMap) (src : Int) : Int × Option (List Int) :=
  if src < 0 then (errUnknownPID, none)
  else
    match map.pdists[src.toNat]? with
    | none => (errUnknownPID, none)
    | some row => (0, some row)

/-- `ISPPDistanceMap::loadP4PInfo`, with the PIDs of the ISP's PID map. -/
def loadP4PInfo (indexToPid : List PID) (source : DataSource) (map : ISPPDistanceMap) :
    Option (Int × ISPPDistanceMap) := do
  match ← source.fetch pDistanceReader.consume ∅ with
  | .error rc => return (rc, map)
  | .ok dists => return (0, ofMatrix dists indexToPid)

end ISPPDistanceMap

end Alto
