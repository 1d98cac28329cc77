import Alto.Server.NetState
import Alto.Server.PIDRouting

/-!
# Computing routes

`PinnedPID` (`common-server/src/include/p4pserver/net_state.h`) and the route computation of
`PIDRouting` (`common-server/src/lib/pid_routing.cpp`). The iteration order of the hash sets and
Boost's `dijkstra_shortest_paths` are parameters. There is no result (`none`) where the code passes a
vertex that is not in the graph, where Boost throws `negative_edge`, and where the trace back along
the predecessors does not end.
-/

namespace Alto

open Lib

/-- `PinnedPID`: a PID with at least one vertex. -/
structure PinnedPID where
  pid : PID
  vertices : StdSet NetVertex
  nonempty : vertices.isEmpty = false
  deriving DecidableEq

namespace PinnedPID

/-- `PinnedPID(pid, vertices)`, which throws if there are no vertices. -/
def ofSet (pid : PID) (vertices : StdSet NetVertex) : Option PinnedPID :=
  if h : vertices.isEmpty = false then some ⟨pid, vertices, h⟩ else none

/-- `PinnedPID(pid, vertex)`. -/
def ofVertex (pid : PID) (v : NetVertex) : PinnedPID where
  pid := pid
  vertices := (∅ : StdSet NetVertex).insert v
  nonempty := by simp

/-- `PinnedPID::get_vertex`. -/
def getVertex (p : PinnedPID) : NetVertex :=
  p.vertices.toList.head (by
    intro h
    have hempty := p.nonempty
    rw [← Std.ExtTreeSet.isEmpty_toList, h] at hempty
    cases hempty)

end PinnedPID

/-- `PinnedPIDSet`: PIDs are stored once. -/
abbrev PinnedPIDSet := List PinnedPID

namespace PinnedPIDSet

/-- `find(PinnedPID(pid, NULL))`. -/
def find (pids : PinnedPIDSet) (pid : PID) : Option PinnedPID := List.find? (·.pid = pid) pids

/-- `insert`. -/
def insert (pids : PinnedPIDSet) (p : PinnedPID) : PinnedPIDSet :=
  match find pids p.pid with
  | some _ => pids
  | none => p :: pids

end PinnedPIDSet

/-- The code that the server uses: the iteration order of a `PinnedPIDSet`, the rounding of a sum,
and `dijkstra_shortest_paths`, which gets the graph, the source, the indexes of the vertices and the
weights of the edges and returns the predecessor of every vertex, or throws. -/
structure ViewLibs where
  iter : PinnedPIDSet → List PinnedPID
  perm : ∀ pids, (iter pids).Perm pids
  rnd : ℚ → Double
  dijkstra : NetGraph → NetVertex → StdMap NetVertex Nat → StdMap (NetVertex ×ₗ NetVertex) Double →
    Option (NetVertex → NetVertex)

/-- `PIDRouting::PinnedRoute`. -/
abbrev PinnedRoute := List PinnedPID

/-- `PIDRouting::RouteComputationContext`. An edge is named by its two ends. -/
structure RouteContext where
  result : StdMap PID PinnedRoute := ∅
  vertIndexes : StdMap NetVertex Nat := ∅
  edgeWeights : StdMap (NetVertex ×ₗ NetVertex) Double := ∅
  vertPreds : StdMap NetVertex NetVertex := ∅

namespace NetState

/-- `NetState::get_pid`. -/
def getPid (net : NetState) (v : NetVertex) : Option PID := net.graph.verts[v]?.map (·.pid)

/-- `NetState::get_external`. -/
def getExternal (net : NetState) (v : NetVertex) : Option Bool :=
  net.graph.verts[v]?.map (·.external)

/-- `NetState::get_nodes`. -/
def getNodes (net : NetState) : List NetVertex := net.graph.verts.keys

/-- `NetState::compute_shortest_paths`: the predecessors of all vertices get overwritten. -/
def computeShortestPaths (libs : ViewLibs) (net : NetState) (src : NetVertex)
    (vertIdxs : StdMap NetVertex Nat) (vertPreds : StdMap NetVertex NetVertex)
    (edgeWeights : StdMap (NetVertex ×ₗ NetVertex) Double) : Option (StdMap NetVertex NetVertex) :=
  if src ∈ net.graph.verts then
    (libs.dijkstra net.graph src vertIdxs edgeWeights).map fun pred =>
      net.getNodes.foldl (fun m v => m.insert v (pred v)) vertPreds
  else none

end NetState

namespace PIDRouting

/-- `PIDRouting::add_static_route`: a route goes behind the ones with the same ends. -/
def addStaticRoute (r : PIDRouting) (id : Nat) (value : List PID) : Bool × PIDRouting :=
  if r.routeMode ≠ .static then (false, r)
  else if value.length < 2 then (false, r)
  else
    (true, { r with
      staticRoutes := r.staticRoutes ++ [⟨id, value⟩]
      staticRoutePtrs := r.staticRoutePtrs ++ value.map fun pid => (pid, RoutePtr.own id) })

/-- `PIDRouting::remove_static_route`: the first of the routes with these hops. The index is not touched
in the other mode. -/
def removeStaticRoute (r : PIDRouting) (route : List PID) : Option (Bool × PIDRouting) :=
  if route.length < 2 then some (false, r)
  else
    match r.staticRoutes.find? (·.route = route) with
    | none => some (false, r)
    | some s => do
      let r ← if r.routeMode = .static then r.removeStaticRoutePtrs (.own s.id) else some r
      return (true, { r with staticRoutes := r.staticRoutes.filter (·.id ≠ s.id) })

/-- `PIDRouting::get_static_route`. -/
def getStaticRoute (r : PIDRouting) (src dst : PID) : Option (List PID) :=
  (r.staticRoutes.find? fun s => s.route.head? = some src ∧ s.route.getLast? = some dst).map (·.route)

/-! ## Static routes -/

/-- The pinned hops of a route, unless one of them is not in the set. -/
def pinRoute (pids : PinnedPIDSet) (route : List PID) : Option PinnedRoute :=
  route.mapM pids.find

/-- The loop of `get_routes_static`: `false` as soon as a hop is not pinned. -/
def staticLoop (r : PIDRouting) (src : PID) (pids : PinnedPIDSet) :
    List PinnedPID → RouteContext → Bool × RouteContext
  | [], ctx => (true, ctx)
  | dst :: dsts, ctx =>
    match r.getStaticRoute src dst.pid with
    | none => staticLoop r src pids dsts ctx
    | some route =>
      match pinRoute pids route with
      | none => (false, ctx)
      | some hops => staticLoop r src pids dsts { ctx with result := ctx.result.insert dst.pid hops }

/-- `PIDRouting::get_routes_static`. -/
def getRoutesStatic (libs : ViewLibs) (r : PIDRouting) (src : PinnedPID) (pids : PinnedPIDSet)
    (ctx : RouteContext) : Bool × RouteContext :=
  r.staticLoop src.pid pids (libs.iter pids) { ctx with result := ∅ }

/-! ## Routes by weights -/

/-- The first part of `get_routes_weights`: an empty context gets the indexes of the vertices and the
weights of the edges. -/
def fillContext (r : PIDRouting) (net : NetState) (ctx : RouteContext) : RouteContext :=
  if ctx.vertIndexes.isEmpty then
    { ctx with
      vertIndexes := net.getNodes.zipIdx.foldl (fun m x => m.insert x.1 x.2) ctx.vertIndexes
      edgeWeights := net.graph.edgeList.foldl
        (fun m x => m.insert (toLex (x.1.src, x.1.dst))
          (r.getWeight ((net.getPid x.1.src).getD default) ((net.getPid x.1.dst).getD default)))
        ctx.edgeWeights }
  else ctx

/-- The loop `while (v != src.get_vertex())`, with the vertices it visits. -/
def traceBack (preds : StdMap NetVertex NetVertex) (src : NetVertex) :
    Nat → NetVertex → Option (List NetVertex)
  | 0, v => if v = src then some [] else none
  | fuel + 1, v =>
    if v = src then some []
    else
      match preds[v]? with
      | none => none
      | some u => (traceBack preds src fuel u).map (u :: ·)

/-- `PinnedPID(state.get_pid(v), v)`. -/
def pinVertex (net : NetState) (v : NetVertex) : Option PinnedPID :=
  (net.getPid v).map fun pid => .ofVertex pid v

/-- The route to a PID that is not the source and was reached: the destination, its predecessor and
the trace back from there, turned around. -/
def traceRoute (net : NetState) (preds : StdMap NetVertex NetVertex) (src : NetVertex)
    (dst : PinnedPID) (v : NetVertex) : Option PinnedRoute := do
  let back ← traceBack preds src net.graph.verts.size v
  let hops ← (v :: back).mapM (pinVertex net)
  return (PinnedPID.ofVertex dst.pid dst.getVertex :: hops).reverse

/-- The loop of `get_routes_weights`. -/
def weightsLoop (net : NetState) (preds : StdMap NetVertex NetVertex) (src : NetVertex) :
    List PinnedPID → StdMap PID PinnedRoute → Option (StdMap PID PinnedRoute)
  | [], result => some result
  | dst :: dsts, result =>
    match preds[dst.getVertex]? with
    | none => none
    | some v =>
      if v = dst.getVertex then weightsLoop net preds src dsts result
      else
        match traceRoute net preds src dst v with
        | none => none
        | some route => weightsLoop net preds src dsts (result.insert dst.pid route)

/-- `PIDRouting::get_routes_weights`. -/
def getRoutesWeights (libs : ViewLibs) (r : PIDRouting) (src : PinnedPID) (net : NetState)
    (pids : PinnedPIDSet) (ctx : RouteContext) : Option RouteContext := do
  let ctx := { r.fillContext net ctx with result := ∅ }
  let preds ← net.computeShortestPaths libs src.getVertex ctx.vertIndexes ctx.vertPreds
    ctx.edgeWeights
  let result ← weightsLoop net preds src.getVertex (libs.iter pids) ∅
  return { ctx with vertPreds := preds, result }

/-- `PIDRouting::get_routes`. -/
def getRoutes (libs : ViewLibs) (r : PIDRouting) (src : PinnedPID) (net : NetState)
    (pids : PinnedPIDSet) (ctx : RouteContext) : Option (Bool × RouteContext) :=
  match r.routeMode with
  | .static => some (r.getRoutesStatic libs src pids ctx)
  | .weights => (r.getRoutesWeights libs src net pids ctx).map fun ctx => (true, ctx)

end PIDRouting

end Alto
