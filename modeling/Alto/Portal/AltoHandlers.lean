import Alto.Portal.GlobalState
import Alto.Portal.InfoRes

/-!
# The ALTO handlers

The `Process` and `Finish` callbacks of
`portal/server/src/protocol/rest/rest_request_handlers_json.cpp`, from the request as `readJson` has
read it to the network map or the properties that are put into the response, or to the text of the
cost map. There is no view if the request names one that is not registered. The read locks are left
out. Undefined behaviour and exceptions are `none`.
-/

namespace Alto.Portal

open Lib

/-- The objects of a view that the handlers read. -/
structure ViewState where
  prefixes : PIDMap
  aggregation : PIDAggregation
  linkPDistances : PIDMatrix
  intradomainRouting : PIDRouting

/-- `RESTHandler::CostModeSet`. -/
def costModeSet : List String := ["numerical", "ordinal"]

/-- `RESTHandler::CostTypeSet`. -/
def costTypeSet : List String := ["routingcost"]

/-- `RESTHandler::EndPointsPropertySet`. -/
def endPointsPropertySet : List String := ["pid"]

namespace ViewState

/-- The string that `reverse_lookup` leaves in an empty string. -/
def pidName (view : ViewState) (pid : PID) : String := (view.aggregation.reverseLookup pid).getD ""

/-- The cost in the loops over pairs of PIDs, unless the pair is skipped. -/
def cost (view : ViewState) (costMode : String) (src dst : PID) : Option Double :=
  let cost := view.linkPDistances.getByPid src dst (.fin (-1))
  if cost.isNeg then none
  else if costMode = "numerical" then some (view.intradomainRouting.getWeight src dst)
  else some cost

/-- `PIDMap::lookup(const char*)`. -/
def lookup (view : ViewState) (net : AddressText) (behind : Behind) (address : List Char) :
    Option PID :=
  ((IPPrefix.ofText net (cString address)).bind (view.prefixes.lookup behind)).map (·.2)

end ViewState

/-! ## Network maps -/

/-- The addresses of a PID. -/
def addPrefixes (net : AddressText) (netmap : InfoResourceNetworkMap) (pidName : String)
    (prefixes : List IPPrefix) : InfoResourceNetworkMap :=
  prefixes.foldl (fun netmap pfx => netmap.addIP pidName (pfx.toText net)) netmap

/-- The loop of `GetNetMapProcess`. -/
def netMapTurn (net : AddressText) (view : ViewState) (netmap : InfoResourceNetworkMap)
    (pid : PID × List IPPrefix) : InfoResourceNetworkMap :=
  let pidName := view.pidName pid.1
  let netmap := addPrefixes net netmap pidName pid.2
  if pidName = "defaultpid" then netmap.addIP pidName "::/0".toList else netmap

/-- `RESTHandler::GetNetMapProcess`. -/
def getNetMapProcess (net : AddressText) : Option ViewState → Except ALTOErrorCode NetworkMapData
  | none => .error .serviceUnavailable
  | some view => .ok (((view.prefixes.enumerate []).foldl (netMapTurn net view) {}).commit)

/-- The loop of `GetNetMapFilteredFinish`. -/
def netMapFilteredTurn (net : AddressText) (pidSet : StdSet String) (view : ViewState)
    (netmap : InfoResourceNetworkMap) (pid : PID × List IPPrefix) : InfoResourceNetworkMap :=
  let pidName := view.pidName pid.1
  if pidName ∈ pidSet then addPrefixes net netmap pidName pid.2 else netmap

/-- `RESTHandler::GetNetMapFilteredFinish`. -/
def getNetMapFilteredFinish (net : AddressText) (pidSet : StdSet String) :
    Option ViewState → Except ALTOErrorCode NetworkMapData
  | none => .error .serviceUnavailable
  | some view =>
    .ok (((view.prefixes.enumerate []).foldl (netMapFilteredTurn net pidSet view) {}).commit)

/-! ## Cost maps -/

/-- A turn of the inner loop of the cost map handlers: an entry, unless the pair is skipped or its
cost does not pass the test. -/
def costMapTurn (view : ViewState) (costMode : String) (test : Double → Bool) (ircm : CostMatrix)
    (pair : PID × PID) : CostMatrix :=
  match view.cost costMode pair.1 pair.2 with
  | none => ircm
  | some cost =>
    if test cost then ircm.addCost (view.pidName pair.1) (view.pidName pair.2) cost else ircm

/-- The loops of the cost map handlers over two sets of PIDs. -/
def costMapLoop (view : ViewState) (costMode : String) (test : Double → Bool)
    (allSrc allDst : StdSet PID) : CostMatrix :=
  (allSrc.toList.product allDst.toList).foldl (costMapTurn view costMode test) ∅

/-- The set of the PIDs in a list. -/
def pidSetOf (pids : List PID) : StdSet PID := pids.foldl (fun set pid => set.insert pid) ∅

/-- `RESTHandler::GetCostMapFinish`. -/
def getCostMapFinish (ar : Arith) (vtag costMode costType : String) (view : Option ViewState) :
    Except ALTOErrorCode (List Char) :=
  if costMode ∉ costModeSet then .error .invalidCostMode
  else if costType ∉ costTypeSet then .error .invalidCostType
  else
    match view with
    | none => .error .serviceUnavailable
    | some view =>
      let all := pidSetOf view.prefixes.enumerateValues
      .ok (makeJsonStr
        ((costMapLoop view costMode (fun _ => true) all all).commit ar costMode costType vtag))

/-- The PIDs of the names in a request. -/
def lookupSet (view : ViewState) (names : StdSet String) : StdSet PID :=
  pidSetOf (names.toList.map view.aggregation.lookup)

/-- `RESTHandler::GetCostMapFilteredFinish`. -/
def getCostMapFilteredFinish (ar : Arith) (vtag : String) (strtod : List Char → Double)
    (pidMat : CostFilter) (view : Option ViewState) :
    Option (Except ALTOErrorCode (List Char)) := do
  let filter ← PostFilter.readConstraints strtod pidMat.constraints
  if pidMat.costMode ∉ costModeSet then return .error .invalidCostMode
  else if pidMat.costType ∉ costTypeSet then return .error .invalidCostType
  else
    match view with
    | none => return .error .serviceUnavailable
    | some view =>
      return .ok (makeJsonStr ((costMapLoop view pidMat.costMode filter.inConstraints
        (lookupSet view pidMat.srcs) (lookupSet view pidMat.dsts)).commit ar pidMat.costMode
          pidMat.costType vtag))

/-! ## Endpoints -/

/-- The loop of `GetEndPointsPropertyFinish` over the endpoints. -/
def endPointTurn (net : AddressText) (behind : Behind) (view : ViewState) (type : String)
    (epp : EndPointsProperty) (endPoint : String) : Option EndPointsProperty := do
  let ip ← PostFilter.stripIP endPoint.toList
  match view.lookup net behind ip with
  | none => return epp
  | some pid => return epp.setProp endPoint (view.pidName pid) type

/-- The loop of `GetEndPointsPropertyFinish` over the properties. -/
def propertyLoop (net : AddressText) (behind : Behind) (view : Option ViewState)
    (endPoints : StdSet String) : List String → EndPointsProperty →
    Option (Except ALTOErrorCode EndPointsProperty)
  | [], epp => some (.ok epp)
  | type :: properties, epp =>
    if type ∉ endPointsPropertySet then some (.error .invalidPropertyType)
    else
      match view with
      | none => some (.error .serviceUnavailable)
      | some v => do
        let epp ← endPoints.toList.foldlM (endPointTurn net behind v type) epp
        propertyLoop net behind view endPoints properties epp

/-- `RESTHandler::GetEndPointsPropertyFinish`. -/
def getEndPointsPropertyFinish (net : AddressText) (behind : Behind)
    (properties endPoints : StdSet String) (view : Option ViewState) :
    Option (Except ALTOErrorCode EndPointsProperty) :=
  propertyLoop net behind view endPoints properties.toList ∅

/-- The inner loop of `GetEndPointsCostFinish`. A null pointer is followed if an endpoint has no
PID. -/
def endPointCostTurn (net : AddressText) (behind : Behind) (view : ViewState) (costMode : String)
    (test : Double → Bool) (src : String) (srcPid : Option PID) (epcost : CostMatrix)
    (dst : String) : Option CostMatrix := do
  let dstIp ← PostFilter.stripIP dst.toList
  let srcPid ← srcPid
  let dstPid ← view.lookup net behind dstIp
  match view.cost costMode srcPid dstPid with
  | none => return epcost
  | some cost => return if test cost then epcost.addCost src dst cost else epcost

/-- The loops of `GetEndPointsCostFinish`. -/
def endPointCostLoop (net : AddressText) (behind : Behind) (view : ViewState) (costMode : String)
    (test : Double → Bool) (srcs dsts : StdSet String) : Option CostMatrix :=
  srcs.toList.foldlM (fun epcost src => do
    let srcIp ← PostFilter.stripIP src.toList
    dsts.toList.foldlM (endPointCostTurn net behind view costMode test src
      (view.lookup net behind srcIp)) epcost) ∅

/-- `RESTHandler::GetEndPointsCostFinish`. -/
def getEndPointsCostFinish (ar : Arith) (vtag : String) (strtod : List Char → Double)
    (net : AddressText) (behind : Behind) (jsonEpcost : CostFilter) (view : Option ViewState) :
    Option (Except ALTOErrorCode (List Char)) := do
  let filter ← PostFilter.readConstraints strtod jsonEpcost.constraints
  if jsonEpcost.costMode ∉ costModeSet then return .error .invalidCostMode
  else if jsonEpcost.costType ∉ costTypeSet then return .error .invalidCostType
  else
    match view with
    | none => return .error .serviceUnavailable
    | some view => do
      let epcost ← endPointCostLoop net behind view jsonEpcost.costMode filter.inConstraints
        jsonEpcost.srcs jsonEpcost.dsts
      return .ok (makeJsonStr (epcost.commit ar jsonEpcost.costMode jsonEpcost.costType vtag))

end Alto.Portal
