import Alto.Common.PatriciaTrie
import Alto.Server.ContentReader

/-!
# The handlers of the view interface

`portal/server/src/protocol/rest/rest_request_handlers_view.cpp`: the responses of PIDs and of the PID
map.
-/

namespace Alto.Portal

open Server

/-! ## PIDs -/

/-- `PID::DEFAULT`. -/
def defaultPID : PID := ⟨"pid.p4p", 0, false⟩

/-- The loop of `GetPIDsWrite`, with the addresses that are left. `lookup` is the PID map of the view,
which stays locked. -/
def putAddrs (net : AddressText) (lookup : IPPrefix → Option PID) :
    List IPPrefix → ResponseStream → List IPPrefix × ResponseStream
  | [], rsp => ([], rsp)
  | ip :: addrs, rsp =>
    let l := lookup ip
    let rsp := (((rsp.put (ip.toText net)).put ['\t']).put (l.getD defaultPID).toText).put
      ['\r', '\n']
    if rsp.good then putAddrs net lookup addrs rsp.setMark else (ip :: addrs, rsp)

/-- `RESTHandler::GetPIDsWrite`, with the list `addrs` of `GetPIDsState`. -/
def getPIDsWrite (net : AddressText) (lookup : IPPrefix → Option PID) (addrs : List IPPrefix)
    (max : Nat) : List IPPrefix × Option (List Char) :=
  if addrs.isEmpty then (addrs, none)
  else
    let (addrs, rsp) := putAddrs net lookup addrs { size := max }
    (addrs, some rsp.marked)

/-! ## The PID map -/

/-- `RESTHandler::GetPIDMapState`. -/
structure GetPIDMapState where
  pids : List (PID × List IPPrefix) := []
  i : Nat := 0
  j : Nat := 0
  pidState : Nat := 0

namespace GetPIDMapState

variable (net : AddressText)

/-- The loop over the prefixes of a PID, with the new `j`. It is left by a `return` if the stream is
not good. -/
def putPrefixes : List IPPrefix → Nat → ResponseStream → Nat × ResponseStream
  | [], j, rsp => (j, rsp)
  | p :: prefixes, j, rsp =>
    let rsp := (rsp.put ['\t']).put (p.toText net)
    if rsp.good then putPrefixes prefixes (j + 1) rsp.setMark else (j, rsp)

/-- `case 2`. -/
def putEnd (data : GetPIDMapState) (rsp : ResponseStream) : GetPIDMapState × ResponseStream :=
  let rsp := rsp.put ['\r', '\n']
  if rsp.good then ({ data with pidState := 0 }, rsp.setMark) else (data, rsp)

/-- `case 1`, which falls through to `case 2`. -/
def putList (data : GetPIDMapState) (record : PID × List IPPrefix) (rsp : ResponseStream) :
    GetPIDMapState × ResponseStream :=
  let prefixesSize := record.2.length % 2 ^ 32
  let (j, rsp) := putPrefixes net ((record.2.take prefixesSize).drop data.j) data.j rsp
  if rsp.good then putEnd { data with j := 0, pidState := 2 } rsp else ({ data with j }, rsp)

/-- `case 0`, which falls through to `case 1`. -/
def putHead (data : GetPIDMapState) (record : PID × List IPPrefix) (rsp : ResponseStream) :
    GetPIDMapState × ResponseStream :=
  let rsp := ((rsp.put record.1.toText).put ['\t']).put (Nat.toDigits 10 record.2.length)
  if rsp.good then putList net { data with pidState := 1 } record rsp.setMark else (data, rsp)

/-- `switch (data->pid_state)`. -/
def putRecord (data : GetPIDMapState) (record : PID × List IPPrefix) (rsp : ResponseStream) :
    GetPIDMapState × ResponseStream :=
  match data.pidState with
  | 0 => putHead net data record rsp
  | 1 => putList net data record rsp
  | 2 => putEnd data rsp
  | _ => (data, rsp)

/-- The loop over the records from `i` on. -/
def putRecords : List (PID × List IPPrefix) → GetPIDMapState → ResponseStream →
    GetPIDMapState × ResponseStream
  | [], data, rsp => (data, rsp)
  | record :: records, data, rsp =>
    let (data, rsp) := putRecord net data record rsp
    if rsp.good then putRecords records { data with i := data.i + 1 } rsp else (data, rsp)

end GetPIDMapState

/-- `RESTHandler::GetPIDMapWrite`. -/
def getPIDMapWrite (net : AddressText) (data : GetPIDMapState) (max : Nat) :
    GetPIDMapState × Option (List Char) :=
  let pidsSize := data.pids.length % 2 ^ 32
  if pidsSize ≤ data.i then (data, none)
  else
    let (data, rsp) :=
      GetPIDMapState.putRecords net ((data.pids.take pidsSize).drop data.i) data { size := max }
    (data, some rsp.marked)

/-- The data of the response in `RESTHandler::GetPIDMapFinish`, for the PIDs that the request lists. -/
def getPIDMapFinish (prefixes : PatriciaTrie PID) (requested : List PID) : GetPIDMapState where
  pids := prefixes.enumerate (requested.map fun pid => (pid, []))

end Alto.Portal
