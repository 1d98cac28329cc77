import Alto.Common.Double
import Alto.Common.IStream
import Alto.Lib.StdMap
import Alto.Portal.JsonWriter

/-!
# Information resources

The resources that the ALTO handlers build and the filters that come with a request
(`portal/server/src/infores`). Network maps and properties, which have no numbers, are the maps of
their members; a cost map is the text of its JSON object. The arithmetic on doubles and `strtod` are
parameters. A `std::out_of_range` is `none`. The names of PIDs come from URLs and have no zero byte,
so `c_str()` leaves them as they are.
-/

namespace Alto.Portal

open Lib

/-- `ALTOErrorCode`. -/
inductive ALTOErrorCode where
  | syntaxError
  | jsonFieldMissing
  | jsonValueType
  | invalidCostMode
  | invalidCostType
  | invalidPropertyType
  | serviceUnavailable
  | temporaryRedirect
  | ok
deriving DecidableEq, Repr

/-! ## Network maps -/

/-- `AddrGroup`. -/
abbrev AddrGroup := StdMap String (List (List Char))

/-- `InfoResourceNetworkMap`. -/
structure InfoResourceNetworkMap where
  pidsV4 : AddrGroup := ∅
  pidsV6 : AddrGroup := ∅

/-- `EndpointAddrGroup`. A list without addresses is no member of the object. -/
structure EndpointAddrGroup where
  ipv4 : List (List Char)
  ipv6 : List (List Char)
deriving DecidableEq, Repr

/-- `NetworkMapData`. -/
abbrev NetworkMapData := StdMap String EndpointAddrGroup

/-- `NetworkMapData::setPID`. -/
def NetworkMapData.setPID (data : NetworkMapData) (name : String) (ipv4 ipv6 : List (List Char)) :
    NetworkMapData :=
  if ipv4 ≠ [] ∨ ipv6 ≠ [] then data.insert name ⟨ipv4, ipv6⟩ else data

namespace InfoResourceNetworkMap

/-- `InfoResourceNetworkMap::hasPID`. -/
def hasPID (netmap : InfoResourceNetworkMap) (pid : String) : Bool :=
  (netmap.pidsV4[pid]?).isSome

/-- `InfoResourceNetworkMap::isIPv6`. -/
def isIPv6 (ip : List Char) : Bool := decide (':' ∈ ip)

/-- The entries that `addIP` makes for a new PID. -/
def addPID (netmap : InfoResourceNetworkMap) (pid : String) : InfoResourceNetworkMap :=
  if netmap.hasPID pid then netmap
  else ⟨netmap.pidsV4.insert pid [], netmap.pidsV6.insert pid []⟩

/-- `pids[pid].push_back(ip)`. -/
def push (pids : AddrGroup) (pid : String) (ip : List Char) : AddrGroup :=
  pids.insert pid ((pids[pid]?).getD [] ++ [ip])

/-- `InfoResourceNetworkMap::addIP`. -/
def addIP (netmap : InfoResourceNetworkMap) (pid : String) (ip : List Char) :
    InfoResourceNetworkMap :=
  let netmap := netmap.addPID pid
  if isIPv6 ip then { netmap with pidsV6 := push netmap.pidsV6 pid ip }
  else { netmap with pidsV4 := push netmap.pidsV4 pid ip }

/-- `InfoResourceNetworkMap::commit`: the member `map`. -/
def commit (netmap : InfoResourceNetworkMap) : NetworkMapData :=
  netmap.pidsV4.toList.foldl
    (fun data e => data.setPID e.1 e.2 ((netmap.pidsV6[e.1]?).getD [])) ∅

end InfoResourceNetworkMap

/-! ## JSON objects -/

/-- The arithmetic of `InfoResBase::addNumber`: `int` and `double` operations of the machine. The
quotient of an `int` by `10.0` is finite. -/
structure Arith where
  mul : Double → Double → Double
  add : Double → Double → Double
  toInt : Double → Int
  tenth : Int → ℚ

/-- The number that `InfoResBase::addNumber` stores, with a precision of 0.1. -/
def Arith.round (ar : Arith) (num : Double) : ℚ :=
  ar.tenth (ar.toInt (ar.add (ar.mul num 10) (.fin (1 / 2))))

namespace InfoResBase

/-- An assignment to `Object::operator[]`. -/
def assign (object : JsonObject) (name : List Char) (element : JsonValue) : JsonObject :=
  if object.any (·.1 = name) then
    object.map fun member => if member.1 = name then (name, element) else member
  else object ++ [(name, element)]

/-- `InfoResBase::addString`. -/
def addString (object : JsonObject) (name str : String) : JsonObject :=
  assign object name.toList (.string str.toList)

/-- `InfoResBase::addNumber`. -/
def addNumber (ar : Arith) (object : JsonObject) (name : String) (num : Double) : JsonObject :=
  assign object name.toList (.number (.fin (ar.round num)))

/-- `InfoResBase::addObject`. -/
def addObject (object : JsonObject) (name : String) (obj : JsonObject) : JsonObject :=
  assign object name.toList (.object obj)

/-- `InfoResBase::toJson`. -/
def toJson (object : JsonObject) : List Char :=
  JsonWriter.writeElement JsonWriter.writeNumber (.object object)

end InfoResBase

open InfoResBase

/-- `InfoResourceEntity::MakeJsonStr`. The meta data are empty. -/
def makeJsonStr (data : JsonObject) : List Char :=
  toJson (addObject (addObject [] "meta" []) "data" data)

/-! ## Cost maps -/

/-- `CostMatrix`. -/
abbrev CostMatrix := StdMap String (StdMap String Double)

/-- The cost of an entry. -/
def CostMatrix.get (m : CostMatrix) (src dst : String) : Option Double :=
  (m[src]?).bind fun row => row[dst]?

/-- `InfoResourceCostMap::addCost`. -/
def CostMatrix.addCost (m : CostMatrix) (src dst : String) (cost : Double) : CostMatrix :=
  m.insert src (((m[src]?).getD ∅).insert dst cost)

/-- `DstCosts`, filled by the inner loop of `InfoResourceCostMap::commit`. -/
def dstCosts (ar : Arith) (dstMap : StdMap String Double) : JsonObject :=
  dstMap.toList.foldl (fun dc dst => addNumber ar dc dst.1 dst.2) []

/-- `CostMapData`, filled by `InfoResourceCostMap::commit`. -/
def CostMatrix.costMapData (ar : Arith) (m : CostMatrix) : JsonObject :=
  m.toList.foldl (fun cmd src => addObject cmd src.1 (dstCosts ar src.2)) []

/-- `InfoResourceCostMap`, with its mode, type and version tag, after `commit`. -/
def CostMatrix.commit (ar : Arith) (costMode costType vtag : String) (m : CostMatrix) : JsonObject :=
  addObject (addString (addString (addString [] "cost-mode" costMode) "cost-type" costType)
    "map-vtag" vtag) "map" (m.costMapData ar)

/-! ## Filters -/

/-- `PostFilter`. -/
structure PostFilter where
  hasConstraints : Bool := false
  upperBound : Double := .max
  upperTight : Bool := false
  lowerBound : Double := Double.max.neg
  lowerTight : Bool := false

namespace PostFilter

/-- `PostFilter::StripIP`. -/
def stripIP (ipStr : List Char) : Option (List Char) :=
  if "ip".toList <:+: ipStr then
    if ipStr.length < 5 then none else some (ipStr.drop 5)
  else some ipStr

/-- `PostFilter::inConstraints`. -/
def inConstraints (f : PostFilter) (value : Double) : Bool :=
  if !f.hasConstraints then true
  else if (!f.upperTight && f.upperBound.le value) || (f.upperTight && f.upperBound.lt value) then
    false
  else if (!f.lowerTight && value.le f.lowerBound) || (f.lowerTight && value.lt f.lowerBound) then
    false
  else true

/-- A turn of the loop of `readConstraints`, and whether it leaves the loop. -/
def readConstraint (strtod : List Char → Double) (f : PostFilter) (cons : List Char) :
    Option (PostFilter × Bool) :=
  if cons.length < 2 then none
  else
    let opr := cons.take 2
    let bound := strtod (cons.drop 2)
    if opr = "lt".toList ∧ bound.lt f.upperBound then
      some ({ f with upperBound := bound, upperTight := false }, false)
    else if opr = "gt".toList ∧ f.lowerBound.lt bound then
      some ({ f with lowerBound := bound, lowerTight := false }, false)
    else if opr = "le".toList ∧ bound.lt f.upperBound then
      some ({ f with upperBound := bound, upperTight := true }, false)
    else if opr = "ge".toList ∧ f.lowerBound.lt bound then
      some ({ f with lowerBound := bound, lowerTight := true }, false)
    else if opr = "eq".toList then
      some ({ f with
        lowerBound := bound
        upperBound := bound
        lowerTight := true
        upperTight := true }, true)
    else some (f, false)

/-- The loop of `readConstraints`. -/
def readLoop (strtod : List Char → Double) : List (List Char) → PostFilter → Option PostFilter
  | [], f => some f
  | cons :: array, f =>
    match readConstraint strtod f cons with
    | none => none
    | some (f, true) => some f
    | some (f, false) => readLoop strtod array f

/-- `PostFilter::readConstraints`, with the array of the member `constraints`, if there is one. -/
def readConstraints (strtod : List Char → Double) : Option (List (List Char)) → Option PostFilter
  | none => some {}
  | some array => readLoop strtod array { hasConstraints := true }

end PostFilter

/-- What `JsonPIDMatrix::readJson` and `JsonEndPointsCost::readJson` read from a request. -/
structure CostFilter where
  costMode : String
  costType : String
  constraints : Option (List (List Char))
  srcs : StdSet String
  dsts : StdSet String

/-! ## Properties of endpoints -/

/-- `EndPointsProperty`: the property `pid` of the endpoints. -/
abbrev EndPointsProperty := StdMap String String

/-- `EndPointsProperty::setProp`. -/
def EndPointsProperty.setProp (epp : EndPointsProperty) (ip prop type : String) :
    EndPointsProperty :=
  if type = "pid" then epp.insert ip prop else epp

end Alto.Portal
