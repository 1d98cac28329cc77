import Alto.Server.PIDMatrix

/-!
# Routing of a view

`PIDRouting` (`common-server/src/include/p4pserver/pid_routing.h`,
`common-server/src/lib/pid_routing.cpp`). An iterator into `static_routes_` is the number of the
element; `static_route_ptrs_` also takes iterators into the routes of another object, which
`do_copy_properties` puts there. Such an iterator dangles once the other object is gone, and
following it has no result.
-/

namespace Alto

open Lib

/-- `PIDRouting::RouteMode`. -/
inductive RouteMode where
  | static
  | weights
  deriving DecidableEq

/-- An element of `static_routes_`. -/
structure StaticRoute where
  id : Nat
  route : List PID
  deriving DecidableEq

/-- `PIDRouting::StaticRouteMapItr`. -/
inductive RoutePtr where
  | own (id : Nat)
  | foreign
  deriving DecidableEq

/-- `PIDRouting`. -/
structure PIDRouting where
  defaultWeight : Double
  routeMode : RouteMode
  staticRoutes : List StaticRoute
  staticRoutePtrs : List (PID × RoutePtr)
  weights : PIDMatrix
  deriving DecidableEq

namespace PIDRouting

/-- `PIDRouting::PIDRouting`. -/
def new (defaultWeight : Double) : PIDRouting := ⟨defaultWeight, .weights, [], [], .empty⟩

/-- `PIDRouting::do_copy_properties`: the new object. It has no per-PID index. -/
def doCopyProperties (r : PIDRouting) : PIDRouting where
  defaultWeight := r.defaultWeight
  routeMode := r.routeMode
  staticRoutes := if r.routeMode = .static then r.staticRoutes else []
  staticRoutePtrs := []
  weights := r.weights.doCopyProperties

/-- `PIDRouting::do_copy_properties`: the index entries of the new routes go to the object that is
copied. -/
def afterCopyProperties (r : PIDRouting) : PIDRouting :=
  if r.routeMode = .static then
    { r with
      staticRoutePtrs := r.staticRoutePtrs ++
        r.staticRoutes.flatMap fun s => s.route.map fun pid => (pid, RoutePtr.foreign) }
  else r

/-- `PIDRouting::set_weight`. -/
def setWeight (r : PIDRouting) (src dst : PID) (value : Double) : Bool × PIDRouting :=
  ((r.weights.setByPid src dst value).1,
    { r with weights := (r.weights.setByPid src dst value).2 })

/-- `PIDRouting::get_weight`. -/
def getWeight (r : PIDRouting) (src dst : PID) : Double :=
  r.weights.getByPid src dst r.defaultWeight

/-- `PIDRouting::clear_static_routes`. -/
def clearStaticRoutes (r : PIDRouting) : Bool × PIDRouting :=
  if r.routeMode ≠ .static then (false, r)
  else (true, { r with staticRoutes := [], staticRoutePtrs := [] })

/-- `PIDRouting::set_route_mode`. The routes are cleared only after the mode has changed. -/
def setRouteMode (r : PIDRouting) (value : RouteMode) : PIDRouting :=
  if r.routeMode = value then r else (clearStaticRoutes { r with routeMode := value }).2

/-- `PIDRouting::add_pid`. -/
def addPid (r : PIDRouting) (pid : PID) : PIDRouting :=
  match r.routeMode with
  | .static => r
  | .weights => { r with weights := (r.weights.addPid pid).2 }

/-- `remove_static_route_ptrs(r_itr)`: the index entries of a route. -/
def removeStaticRoutePtrs (r : PIDRouting) (itr : RoutePtr) : Option PIDRouting :=
  match itr with
  | .foreign => none
  | .own id =>
    match r.staticRoutes.find? (·.id = id) with
    | none => none
    | some s =>
      some { r with
        staticRoutePtrs := r.staticRoutePtrs.filter fun e => ¬(e.2 = itr ∧ e.1 ∈ s.route) }

/-- `append_static_route_ptrs(pid)`: the routes that the index has for a PID. -/
def appendStaticRoutePtrs (r : PIDRouting) (pid : PID) : List RoutePtr :=
  ((r.staticRoutePtrs.filter (·.1 = pid)).map (·.2)).dedup

/-- `PIDRouting::remove_pid`. -/
def removePid (r : PIDRouting) (pid : PID) : Option PIDRouting :=
  match r.routeMode with
  | .static => (r.appendStaticRoutePtrs pid).foldlM removeStaticRoutePtrs r
  | .weights => some { r with weights := (r.weights.removePid pid).2 }

end PIDRouting

end Alto
