import Alto.Portal.AltoHandlers
import Alto.Portal.GlobalState
import Alto.Portal.RequestProcess
import Alto.Server.ContentReader

/-!
# The costs of a view

`ViewWrapper::get_pdistance` (`portal/server/src/view/view.h`): the pDistance of two PIDs as clients
see it; and the response of costs in `portal/server/src/protocol/rest/rest_request_handlers_view.cpp`.
-/

namespace Alto.Portal

open Lib Server

/-- The objects of a view that `ViewWrapper::get_pdistance` reads. -/
structure CostView where
  prefixes : PIDMap
  intradomainPDistances : PIDMatrix
  interdomainPDistances : PIDMatrix

namespace CostView

/-- `ViewWrapper::get_pdistance_intradomain`. -/
def getPDistanceIntradomain (view : CostView) (src dst : PID) : Double :=
  view.intradomainPDistances.getByPid src dst .nan

/-- `ViewWrapper::get_pdistance_interdomain`: the internal PID must be in the intradomain matrix. -/
def getPDistanceInterdomain (view : CostView) (src dst : PID) : Double :=
  match view.intradomainPDistances.find (if src.external then dst else src) with
  | none => .nan
  | some _ => view.interdomainPDistances.getByPid src dst .nan

/-- `ViewWrapper::get_pdistance`. There are no costs between two external PIDs, and both PIDs must have
prefixes. -/
def getPDistance (view : CostView) (src dst : PID) : Double :=
  if src.external ∧ dst.external then .nan
  else if ¬ view.prefixes.hasPrefixes src ∨ ¬ view.prefixes.hasPrefixes dst then .nan
  else if ¬ src.external ∧ ¬ dst.external then view.getPDistanceIntradomain src dst
  else view.getPDistanceInterdomain src dst

end CostView

/-! ## Numbers on the wire -/

/-- `View::MIN_PDISTANCE`. -/
def minPDistance : Nat := 0

/-- `View::MAX_PDISTANCE`. -/
def maxPDistance : Nat := 2 * 2 ^ 16 - 1

/-- `p4p::detail::clip`. -/
def clip (val minVal maxVal : Nat) : Nat :=
  if val < minVal then minVal else if val > maxVal then maxVal else val

/-- `round_int`. The conversion to `unsigned int` is the compiler's. -/
def roundInt (rnd : ℚ → Double) (cast : Double → Nat) (x : Double) : Nat :=
  cast (x.add rnd (.fin (1 / 2)))

/-- The number that `GetCostsWrite` puts for a pair. -/
def wireCost (rnd : ℚ → Double) (cast : Double → Nat) (view : CostView) (src dst : PID) : Nat :=
  clip (roundInt rnd cast (view.getPDistance src dst)) minPDistance maxPDistance

/-! ## The response of costs -/

/-- An entry of the map of a request: a source, whether the reverse costs are asked for, and the
destinations. -/
abbrev CostsEntry := PID × Bool × StdSet PID

/-- The members of `RESTHandler::GetCostsState` that `GetCostsWrite` changes. An iterator is modelled by
what it has in front of it. -/
structure GetCostsCursor where
  pidsCur : List CostsEntry
  entryCur : List PID := []
  pidState : Nat := 0

namespace GetCostsCursor

section Write

variable (cost : PID → PID → Nat)

/-- A destination with its cost and, if asked for, the reverse cost. -/
def putDst (src dst : PID) (reverse : Bool) (rsp : ResponseStream) : ResponseStream :=
  let rsp := (((rsp.put ['\t']).put dst.toText).put ['\t']).put (Nat.toDigits 10 (cost src dst))
  if rsp.good ∧ reverse then (rsp.put ['\t']).put (Nat.toDigits 10 (cost dst src)) else rsp

/-- The loop over the destinations of an entry, with the new `entry_cur`. -/
def putDsts (src : PID) (reverse : Bool) : List PID → ResponseStream → List PID × ResponseStream
  | [], rsp => ([], rsp)
  | dst :: dsts, rsp =>
    let rsp := putDst cost src dst reverse rsp
    if rsp.good then putDsts src reverse dsts rsp.setMark else (dst :: dsts, rsp)

/-- `case 2`. -/
def putEnd (data : GetCostsCursor) (rsp : ResponseStream) : GetCostsCursor × ResponseStream :=
  let rsp := rsp.put ['\r', '\n']
  if rsp.good then ({ data with pidState := 0 }, rsp.setMark) else (data, rsp)

/-- `case 1`, which falls through to `case 2`. -/
def putList (data : GetCostsCursor) (e : CostsEntry) (rsp : ResponseStream) :
    GetCostsCursor × ResponseStream :=
  let (entryCur, rsp) := putDsts cost e.1 e.2.1 data.entryCur rsp
  if rsp.good then putEnd { data with entryCur, pidState := 2 } rsp
  else ({ data with entryCur }, rsp)

/-- `case 0`, which falls through to `case 1`. -/
def putHead (data : GetCostsCursor) (e : CostsEntry) (rsp : ResponseStream) :
    GetCostsCursor × ResponseStream :=
  let flag := if e.2.1 then "inc-reverse".toList else "no-reverse".toList
  let rsp := ((((rsp.put e.1.toText).put ['\t']).put flag).put ['\t']).put
    (Nat.toDigits 10 e.2.2.size)
  if rsp.good then
    putList cost { data with entryCur := e.2.2.toList, pidState := 1 } e rsp.setMark
  else (data, rsp)

/-- `switch (data->pid_state)`. -/
def putEntry (data : GetCostsCursor) (e : CostsEntry) (rsp : ResponseStream) :
    GetCostsCursor × ResponseStream :=
  match data.pidState with
  | 0 => putHead cost data e rsp
  | 1 => putList cost data e rsp
  | 2 => putEnd data rsp
  | _ => (data, rsp)

/-- The loop from `pids_cur` on. An entry without destinations is passed over. -/
def putEntries : List CostsEntry → GetCostsCursor → ResponseStream →
    GetCostsCursor × ResponseStream
  | [], data, rsp => ({ data with pidsCur := [] }, rsp)
  | e :: es, data, rsp =>
    if e.2.2.isEmpty then putEntries es data rsp
    else
      let (data, rsp) := putEntry cost data e rsp
      if rsp.good then putEntries es data rsp else ({ data with pidsCur := e :: es }, rsp)

end Write

end GetCostsCursor

/-- `RESTHandler::GetCostsWrite`. -/
def getCostsWrite (rnd : ℚ → Double) (cast : Double → Nat) (view : CostView)
    (data : GetCostsCursor) (max : Nat) : GetCostsCursor × Option (List Char) :=
  if data.pidsCur.isEmpty then (data, none)
  else
    let (data, rsp) := data.putEntries (wireCost rnd cast view) data.pidsCur { size := max }
    (data, some rsp.marked)

/-- The destinations of an entry in `RESTHandler::GetCostsFinish`: none if the source has no prefixes,
and all PIDs if the request lists none. -/
def fillDsts (prefixes : PIDMap) (allPids : StdSet PID) (src : PID) (e : Bool × StdSet PID) :
    Bool × StdSet PID :=
  if ¬ prefixes.hasPrefixes src then (e.1, ∅)
  else if e.2.isEmpty then (e.1, allPids)
  else e

/-- The data of the response in `RESTHandler::GetCostsFinish`. -/
def getCostsFinish (prefixes : PIDMap) (data : GetCostsState) : GetCostsCursor :=
  let needAll := data.needAll || data.pids.isEmpty
  let allPids := if needAll then pidSetOf prefixes.enumerateValues else ∅
  let pids :=
    if data.pids.isEmpty then
      allPids.toList.foldl (fun pids pid => pids.insert pid (false, ∅)) data.pids
    else data.pids
  { pidsCur := (pids.map (fillDsts prefixes allPids)).toList }

end Alto.Portal
