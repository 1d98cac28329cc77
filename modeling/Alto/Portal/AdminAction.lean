import Alto.Portal.GlobalState

/-!
# Admin actions

`AdminAction` (`portal/server/src/admin/admin_state.cpp`) and its subclasses in
`portal/server/src/admin/admin_net.cpp` and `portal/server/src/admin/admin_view.cpp`. `commit` is a
program over the objects of the transaction; it returns the action, with what it stores in itself,
or `none` for `false`. An exception that is not an `admin_error` does not leave `commit`, because of
its exception specification: it ends the process, and `commit` has no result.
-/

namespace Alto

open Lib Prog

/-- The actions. A list of prefixes is an `IPPrefixSet` in its order. -/
inductive Action where
  /-- An `AdminAction` itself. -/
  | base
  | netNodeAdd (node : String) (external : Bool)
  | netNodeDelete (node : String)
  | netLinkAdd (link src dst : String)
  | netLinkDelete (link : String)
  | viewAdd (view : String)
  | viewDelete (view : String)
  | viewPDistanceUpdate (view : String)
  | viewAddPID (view pid : String) (pidObj : PID)
  | viewDeletePID (view pid : String)
  | viewAddPIDLink (view link src dst : String)
  | viewDeletePIDLink (view link : String)
  | viewAddPIDPrefixes (view pid : String) (prefixes : List IPPrefix)
  | viewDeletePIDPrefixes (view pid : String) (prefixes : List IPPrefix)
  | viewClearPIDPrefixes (view pid : String)
  | viewAddPIDNodes (view pid : String) (nodes : StdSet String)
  | viewDeletePIDNodes (view pid : String) (nodes : StdSet String)
  | viewClearPIDNodes (view pid : String)
  | viewSetLinkCost (view link : String) (cost : Double)
  | viewSetLinkWeight (view link : String) (weight : Double)
  | viewPropGet (view prop value : String) (propValid : Bool)
  | viewPropSet (view prop value : String) (propValid : Bool)

namespace Action

/-- `admin_invalid_view`. -/
def invalidView : String := "Invalid view"

/-- `admin_invalid_pid`. -/
def invalidPid : String := "Invalid PID"

/-! ## References to the objects -/

/-- `AdminAction::get_net_read`. -/
def getNetRead : Prog Payload Unit := read [] netIdx (ret ())

/-- `AdminAction::get_net_write`. -/
def getNetWrite : Prog Payload Unit := write [] netIdx (ret ())

/-- `AdminAction::get_views_read`. -/
def getViewsRead : Prog Payload Unit := read [] viewsIdx (ret ())

/-- `AdminAction::get_views_write`. -/
def getViewsWrite : Prog Payload Unit := write [] viewsIdx (ret ())

/-- The slot of the view of an action. -/
def findView (view : String) : Prog Payload Nat := do
  match ← ViewRegistry.get view with
  | none => throw invalidView
  | some i => return i

/-- `AdminViewBase::get_view_read`. -/
def getViewRead (view : String) : Prog Payload Nat := do
  getViewsRead
  let i ← findView view
  read viewsPath i (ret i)

/-- `AdminViewBase::get_view_write`. -/
def getViewWrite (view : String) : Prog Payload Nat := do
  getViewsWrite
  let i ← findView view
  write viewsPath i (ret i)

/-- `AdminViewBase::get_aggregation_read` and the other children of a view. -/
def getChildRead (c : ViewChild) (view : String) : Prog Payload Nat := do
  let i ← getViewRead view
  read (viewPath i) c.idx (ret i)

/-- `AdminViewBase::get_aggregation_write` and the other children of a view. -/
def getChildWrite (c : ViewChild) (view : String) : Prog Payload Nat := do
  let i ← getViewWrite view
  write (viewPath i) c.idx (ret i)

/-- Store the result of a setter of a child object that reports whether it changed the object. -/
def putChild (i : Nat) (c : ViewChild) (r : Bool × Payload) : Prog Payload Bool :=
  if r.1 then do
    put (viewPath i) c.idx r.2 true
    return true
  else return false

/-- `AdminViewBase::lookup_pid`. -/
def lookupPid (view name : String) : Prog Payload PID := do
  let _ ← getViewRead view
  let i ← getChildRead .aggregation view
  let agg ← loadAggregation (childPath i .aggregation)
  if (agg.lookup name).isInvalid then throw invalidPid else return agg.lookup name

/-! ## Network actions -/

/-- `AdminNetNodeAdd::commit`. -/
def netNodeAddCommit (node : String) (external : Bool) : Prog Payload Bool := do
  getNetWrite
  let net ← loadNet netPath
  match net.addNode node with
  | (none, _) => return false
  | (some v, net) => do
    let net ← orUndef (net.setExternal v external)
    put [] netIdx (.netState net) true
    return true

/-- `AdminNetNodeDelete::commit`. -/
def netNodeDeleteCommit (node : String) : Prog Payload Bool := do
  getNetWrite
  let net ← loadNet netPath
  match ← orUndef (net.removeNode node) with
  | (false, _) => return false
  | (true, net) => do
    put [] netIdx (.netState net) true
    return true

/-- `AdminNetLinkAdd::commit`. -/
def netLinkAddCommit (link src dst : String) : Prog Payload Bool := do
  getNetWrite
  let net ← loadNet netPath
  match net.getNode src, net.getNode dst with
  | some vSrc, some vDst => do
    match ← orUndef (net.addEdge vSrc vDst) with
    | (none, _) => return false
    | (some e, net) => do
      let net ← orUndef (net.setEdgeName e link)
      put [] netIdx (.netState net) true
      return true
  | _, _ => return false

/-- `AdminNetLinkDelete::commit`. `NetState::remove_edge` does not call `changed`. -/
def netLinkDeleteCommit (link : String) : Prog Payload Bool := do
  getNetWrite
  let net ← loadNet netPath
  match net.getEdge link with
  | none => return false
  | some e => do
    let net ← orUndef (net.removeEdge e)
    put [] netIdx (.netState net) false
    return true

/-! ## View actions -/

/-- `AdminViewAdd::commit`. -/
def viewAddCommit (view : String) : Prog Payload Bool := do
  getViewsWrite
  ViewRegistry.add view

/-- `AdminViewDelete::commit`. -/
def viewDeleteCommit (view : String) : Prog Payload Bool := do
  getViewsWrite
  ViewRegistry.remove view

/-- `AdminViewPDistanceUpdate::commit`. -/
def viewPDistanceUpdateCommit (env : Env) (view : String) : Prog Payload Bool := do
  getNetRead
  getViewsWrite
  let _ ← getViewWrite view
  let _ ← getChildRead .aggregation view
  let _ ← getChildRead .aggregation view
  let _ ← getChildRead .intraRouting view
  let i ← getChildRead .linkPDistances view
  return (← doUpdate env i) ≠ 0

/-- `AdminViewAddPID::commit` with `View::add_pid`. -/
def viewAddPIDCommit (view pid : String) (pidObj : PID) : Prog Payload Bool := do
  let _ ← getViewWrite view
  let _ ← getChildWrite .aggregation view
  let _ ← getChildWrite .intraRouting view
  let i ← getChildWrite .linkPDistances view
  let agg ← loadAggregation (childPath i .aggregation)
  if ← putChild i .aggregation ((agg.add pid pidObj ∅).map id .aggregation) then do
    let r ← loadRouting (childPath i .intraRouting)
    put (viewPath i) ViewChild.intraRouting.idx (.routing (r.addPid pidObj)) true
    let link ← loadMatrix (childPath i .linkPDistances)
    let _ ← putChild i .linkPDistances ((link.addPid pidObj).map id .matrix)
    return true
  else return false

/-- `AdminViewDeletePID::commit` with `View::remove_pid`. -/
def viewDeletePIDCommit (view pid : String) : Prog Payload Bool := do
  let _ ← getViewWrite view
  let _ ← getChildWrite .aggregation view
  let _ ← getChildWrite .intraRouting view
  let i ← getChildWrite .linkPDistances view
  let pidObj ← lookupPid view pid
  let agg ← loadAggregation (childPath i .aggregation)
  if agg.has pidObj then do
    let _ ← putChild i .aggregation ((agg.remove pidObj).map id .aggregation)
    let r ← loadRouting (childPath i .intraRouting)
    let r ← orUndef (r.removePid pidObj)
    put (viewPath i) ViewChild.intraRouting.idx (.routing r) true
    let link ← loadMatrix (childPath i .linkPDistances)
    let _ ← putChild i .linkPDistances ((link.removePid pidObj).map id .matrix)
    return true
  else return false

/-- The loop of `AdminViewAddPIDPrefixes::commit` and `AdminViewDeletePIDPrefixes::commit` over the
prefixes: whether a call changed the map, and the map. -/
def changePrefixes (f : PIDMap → IPPrefix → Bool × PIDMap) (m : PIDMap) (prefixes : List IPPrefix) :
    Bool × PIDMap :=
  prefixes.foldl (fun r pfx => ((f r.2 pfx).1 || r.1, (f r.2 pfx).2)) (false, m)

/-- `AdminViewAddPIDPrefixes::commit`. What `PIDMap::add` returns is ignored. -/
def viewAddPIDPrefixesCommit (env : Env) (view pid : String) (prefixes : List IPPrefix) :
    Prog Payload Bool := do
  let i ← getChildWrite .prefixes view
  let pidObj ← lookupPid view pid
  let m ← loadPIDMap (childPath i .prefixes)
  let _ ← putChild i .prefixes
    ((changePrefixes (fun m pfx => m.add env.behind pfx pidObj) m prefixes).map id .pidMap)
  return true

/-- `AdminViewDeletePIDPrefixes::commit`. What `PIDMap::remove` returns is ignored. -/
def viewDeletePIDPrefixesCommit (env : Env) (view pid : String) (prefixes : List IPPrefix) :
    Prog Payload Bool := do
  let i ← getChildWrite .prefixes view
  let pidObj ← lookupPid view pid
  let m ← loadPIDMap (childPath i .prefixes)
  let _ ← putChild i .prefixes
    ((changePrefixes (fun m pfx => m.remove env.behind pfx pidObj) m prefixes).map id .pidMap)
  return true

/-- `AdminViewClearPIDPrefixes::commit`. -/
def viewClearPIDPrefixesCommit (view pid : String) : Prog Payload Bool := do
  let i ← getChildWrite .prefixes view
  let pidObj ← lookupPid view pid
  let m ← loadPIDMap (childPath i .prefixes)
  putChild i .prefixes ((m.removeVal pidObj).map id .pidMap)

/-- `AdminViewAddPIDNodes::commit`: the PID is looked up before the aggregation is written. -/
def viewAddPIDNodesCommit (view pid : String) (nodes : StdSet String) : Prog Payload Bool := do
  let pidObj ← lookupPid view pid
  if pidObj.isInvalid then return false
  else do
    let i ← getChildWrite .aggregation view
    let agg ← loadAggregation (childPath i .aggregation)
    putChild i .aggregation ((agg.addVertices pidObj nodes).map id .aggregation)

/-- `AdminViewDeletePIDNodes::commit` and `AdminViewClearPIDNodes::commit`. -/
def changeNodesCommit (f : PIDAggregation → PID → Bool × PIDAggregation) (view pid : String) :
    Prog Payload Bool := do
  let i ← getChildWrite .aggregation view
  let pidObj ← lookupPid view pid
  let agg ← loadAggregation (childPath i .aggregation)
  putChild i .aggregation ((f agg pidObj).map id .aggregation)

/-- `AdminViewDeletePIDNodes::commit`. -/
def viewDeletePIDNodesCommit (view pid : String) (nodes : StdSet String) : Prog Payload Bool :=
  changeNodesCommit (fun agg pidObj => agg.removeVertices pidObj nodes) view pid

/-- `AdminViewClearPIDNodes::commit`. -/
def viewClearPIDNodesCommit (view pid : String) : Prog Payload Bool :=
  changeNodesCommit PIDAggregation.clearVertices view pid

/-- `AdminViewSetLinkCost::commit`. -/
def viewSetLinkCostCommit (view link : String) (cost : Double) : Prog Payload Bool := do
  let _ ← getChildRead .aggregation view
  let i ← getChildWrite .linkPDistances view
  let agg ← loadAggregation (childPath i .aggregation)
  match agg.getLink link with
  | none => return false
  | some (src, dst) => do
    let m ← loadMatrix (childPath i .linkPDistances)
    putChild i .linkPDistances ((m.setByPid src dst cost).map id .matrix)

/-- `AdminViewSetLinkWeight::commit`. -/
def viewSetLinkWeightCommit (view link : String) (weight : Double) : Prog Payload Bool := do
  let _ ← getChildRead .aggregation view
  let i ← getChildWrite .intraRouting view
  let agg ← loadAggregation (childPath i .aggregation)
  match agg.getLink link with
  | none => return false
  | some (src, dst) => do
    let r ← loadRouting (childPath i .intraRouting)
    putChild i .intraRouting ((r.setWeight src dst weight).map id .routing)

/-- `AdminViewAddPIDLink::commit`. -/
def viewAddPIDLinkCommit (view link src dst : String) : Prog Payload Bool := do
  let i ← getChildWrite .aggregation view
  let srcObj ← lookupPid view src
  let dstObj ← lookupPid view dst
  let agg ← loadAggregation (childPath i .aggregation)
  putChild i .aggregation ((agg.defineLink link srcObj dstObj).map id .aggregation)

/-- `AdminViewDeletePIDLink::commit`. -/
def viewDeletePIDLinkCommit (view link : String) : Prog Payload Bool := do
  let i ← getChildWrite .aggregation view
  let agg ← loadAggregation (childPath i .aggregation)
  putChild i .aggregation ((agg.undefineLink link).map id .aggregation)

/-! ## View properties -/

/-- The text of a property, as `AdminViewPropGet::commit` gives it; `none` for an unknown one. -/
def propText (cast : LexicalCast) (v : View) (prop : String) : Option String :=
  if prop = "default_interpid" then some (cast.ofDouble v.defaultInterpidPDistance)
  else if prop = "default_intrapid" then some (cast.ofDouble v.defaultIntrapidPDistance)
  else if prop = "default_pidlink" then some (cast.ofDouble v.defaultPidlinkPDistance)
  else if prop = "default_interdomain" then some (cast.ofDouble v.defaultInterdomainPDistance)
  else if prop = "interdomain_includes_intradomain" then
    some (cast.ofBool v.interdomainIncludesIntradomain)
  else if prop = "update_interval" then some (cast.ofUnsigned v.updateInterval)
  else if prop = "pid_ttl" then some (cast.ofUnsigned v.pidTtl)
  else if prop = "pdistance_ttl" then some (cast.ofUnsigned v.pdistanceTtl)
  else none

/-- The view with a property set from a text, as in `AdminViewPropSet::commit`; `none` for an
unknown property or a bad value. -/
def setProp (cast : LexicalCast) (v : View) (prop value : String) : Option View :=
  if prop = "default_interpid" then
    (cast.toDouble value).map fun x => { v with defaultInterpidPDistance := x }
  else if prop = "default_intrapid" then
    (cast.toDouble value).map fun x => { v with defaultIntrapidPDistance := x }
  else if prop = "default_pidlink" then
    (cast.toDouble value).map fun x => { v with defaultPidlinkPDistance := x }
  else if prop = "default_interdomain" then
    (cast.toDouble value).map fun x => { v with defaultInterdomainPDistance := x }
  else if prop = "interdomain_includes_intradomain" then
    (cast.toBool value).map fun x => { v with interdomainIncludesIntradomain := x }
  else if prop = "update_interval" then
    (cast.toUnsigned value).map fun x => { v with updateInterval := x }
  else if prop = "pid_ttl" then (cast.toUnsigned value).map fun x => { v with pidTtl := x }
  else if prop = "pdistance_ttl" then
    (cast.toUnsigned value).map fun x => { v with pdistanceTtl := x }
  else none

/-- `AdminViewPropGet::commit`: the text of the property. -/
def viewPropGetCommit (env : Env) (view prop : String) : Prog Payload (Option String) := do
  let i ← getViewRead view
  let v ← loadView (viewPath i)
  return propText env.lexicalCast v prop

/-- `AdminViewPropSet::commit`. -/
def viewPropSetCommit (env : Env) (view prop value : String) : Prog Payload Bool := do
  let i ← getViewWrite view
  let v ← loadView (viewPath i)
  match setProp env.lexicalCast v prop value with
  | none => return false
  | some v => do
    put viewsPath i (.view v) true
    return true

/-! ## All actions -/

/-- An action that stores nothing in itself. -/
def keep (a : Action) (prog : Prog Payload Bool) : Prog Payload (Option Action) := do
  if ← prog then return some a else return none

/-- `AdminAction::commit`. -/
def commit (env : Env) : Action → Prog Payload (Option Action)
  | base => return some base
  | netNodeAdd node external => keep (netNodeAdd node external) (netNodeAddCommit node external)
  | netNodeDelete node => keep (netNodeDelete node) (netNodeDeleteCommit node)
  | netLinkAdd link src dst => keep (netLinkAdd link src dst) (netLinkAddCommit link src dst)
  | netLinkDelete link => keep (netLinkDelete link) (netLinkDeleteCommit link)
  | viewAdd view => keep (viewAdd view) (viewAddCommit view)
  | viewDelete view => keep (viewDelete view) (viewDeleteCommit view)
  | viewPDistanceUpdate view =>
    keep (viewPDistanceUpdate view) (viewPDistanceUpdateCommit env view)
  | viewAddPID view pid pidObj =>
    keep (viewAddPID view pid pidObj) (viewAddPIDCommit view pid pidObj)
  | viewDeletePID view pid => keep (viewDeletePID view pid) (viewDeletePIDCommit view pid)
  | viewAddPIDLink view link src dst =>
    keep (viewAddPIDLink view link src dst) (viewAddPIDLinkCommit view link src dst)
  | viewDeletePIDLink view link =>
    keep (viewDeletePIDLink view link) (viewDeletePIDLinkCommit view link)
  | viewAddPIDPrefixes view pid prefixes =>
    keep (viewAddPIDPrefixes view pid prefixes) (viewAddPIDPrefixesCommit env view pid prefixes)
  | viewDeletePIDPrefixes view pid prefixes =>
    keep (viewDeletePIDPrefixes view pid prefixes)
      (viewDeletePIDPrefixesCommit env view pid prefixes)
  | viewClearPIDPrefixes view pid =>
    keep (viewClearPIDPrefixes view pid) (viewClearPIDPrefixesCommit view pid)
  | viewAddPIDNodes view pid nodes =>
    keep (viewAddPIDNodes view pid nodes) (viewAddPIDNodesCommit view pid nodes)
  | viewDeletePIDNodes view pid nodes =>
    keep (viewDeletePIDNodes view pid nodes) (viewDeletePIDNodesCommit view pid nodes)
  | viewClearPIDNodes view pid =>
    keep (viewClearPIDNodes view pid) (viewClearPIDNodesCommit view pid)
  | viewSetLinkCost view link cost =>
    keep (viewSetLinkCost view link cost) (viewSetLinkCostCommit view link cost)
  | viewSetLinkWeight view link weight =>
    keep (viewSetLinkWeight view link weight) (viewSetLinkWeightCommit view link weight)
  | viewPropGet view prop _ _ => do
    match ← viewPropGetCommit env view prop with
    | none => return none
    | some value => return some (viewPropGet view prop value true)
  | viewPropSet view prop value _ =>
    keep (viewPropSet view prop value true) (viewPropSetCommit env view prop value)

end Action

end Alto
