import Alto.Lib.StdMap
import Alto.Server.Request

/-!
# The process callbacks of the portal

How the handlers of `portal/server/src/protocol/rest/rest_request_handlers_view.cpp` and
`rest_request_handlers_json.cpp` read the body of a request. A handler's state is modelled by the
members that its process callback changes.
-/

namespace Alto.Portal

open Lib Server

/-! ## Lists of addresses and PIDs -/

/-- The common loop of `GetPIDsProcess` and `GetPIDMapProcess`: `while (req >> x)` stores what it
reads. -/
def listTurn {T D : Type} (get : IStream → Option T × IStream) (store : D → T → D)
    (finished : Bool) (req : IStream) (data : D) : Turn D :=
  match get req with
  | (some x, req) => .mark req (store data x)
  | (none, req) => .readErr finished req data

/-- `RESTHandler::GetPIDsProcess`, with the list `addrs`. -/
def getPIDsProcess (net : AddressText) : Bool → IStream → List IPPrefix → Turn (List IPPrefix) :=
  listTurn (IStream.getPrefix net) fun addrs ip => addrs ++ [ip]

/-- `RESTHandler::GetPIDMapProcess`, with the vector `pids`. -/
def getPIDMapProcess : Bool → IStream → List (PID × List IPPrefix) →
    Turn (List (PID × List IPPrefix)) :=
  listTurn IStream.getPID fun pids p => pids ++ [(p, [])]

/-! ## Costs -/

/-- The members `pids` and `need_all` of `RESTHandler::GetCostsState`. -/
structure GetCostsState where
  pids : StdMap PID (Bool × StdSet PID) := ∅
  needAll : Bool := false

/-- How the loop over the destinations of an entry ends. -/
inductive ReadDsts where
  | done (req : IStream) (dsts : StdSet PID)
  | more (dsts : StdSet PID)
  | invalid (dsts : StdSet PID)

/-- The loop over the destinations. Where the body ends in it, `dst` still has the value of the
destination before. -/
def readDsts (finished : Bool) : Nat → PID → IStream → StdSet PID → ReadDsts
  | 0, _, req, dsts => .done req dsts
  | n + 1, dst, req, dsts =>
    match req.getPID with
    | (some dst, req) => readDsts finished n dst req (dsts.insert dst)
    | (none, req) =>
      match requestReadErr finished req with
      | .ignore => readDsts finished n dst req (dsts.insert dst)
      | .more => .more dsts
      | .invalid => .invalid dsts

/-- An entry with its destinations. -/
def GetCostsState.setEntry (data : GetCostsState) (src : PID) (reverse : Bool)
    (dsts : StdSet PID) : GetCostsState :=
  { data with pids := data.pids.insert src (reverse, dsts) }

/-- The body of the loop of `GetCostsProcess` behind the reverse flag. -/
def readEntry (finished : Bool) (src : PID) (reverse : Bool) (dstCount : Nat) (req : IStream)
    (data : GetCostsState) : Turn GetCostsState :=
  if dstCount = 0 then .mark req { data.setEntry src reverse ∅ with needAll := true }
  else
    match readDsts finished dstCount default req ∅ with
    | .done req dsts => .mark req (data.setEntry src reverse dsts)
    | .more dsts => .ret false false (data.setEntry src reverse dsts)
    | .invalid dsts => .ret true true (data.setEntry src reverse dsts)

/-- `RESTHandler::GetCostsProcess`. -/
def getCostsProcess (finished : Bool) (req : IStream) (data : GetCostsState) :
    Turn GetCostsState :=
  let (src, req) := req.getPID
  let (reverse, req) := req.getString
  let (dstCount, req) := req.getUnsigned
  match src, reverse, dstCount with
  | some src, some reverse, some dstCount =>
    if reverse = "inc-reverse".toList then readEntry finished src true dstCount req data
    else if reverse = "no-reverse".toList then readEntry finished src false dstCount req data
    else .ret true true data
  | _, _, _ => .readErr finished req data

/-! ## JSON requests -/

/-- The common body of the process callbacks of JSON requests: the text without its white space. -/
def filterProcess (_ : Bool) (req : IStream) (filter : List Char) : Turn (List Char) :=
  match req.getString with
  | (some parts, req) => .mark req (filter ++ parts)
  | (none, _) => .ret true false filter

/-- `RESTHandler::GetNetMapFilteredProcess`. -/
def getNetMapFilteredProcess := filterProcess

/-- `RESTHandler::GetCostMapFilteredProcess`. -/
def getCostMapFilteredProcess := filterProcess

/-- `RESTHandler::GetEndPointsPropertyProcess`. -/
def getEndPointsPropertyProcess := filterProcess

/-- `RESTHandler::GetEndPointsCostProcess`. -/
def getEndPointsCostProcess := filterProcess

end Alto.Portal
