import Alto.Common.IStream
import Alto.Portal.GlobalState
import Alto.Server.PIDRoutes

/-!
# View updates

`ViewUpdateBase` (`portal/server/src/view/view_update.h`). The optimization plugin is a parameter: the
matrix of the dynamic pDistances it holds after it has computed. A computation that throws, or that
passes a vertex which is not in the graph any more, ends with a fault.
-/

namespace Alto

open Lib

/-- How a view update fails to return. -/
inductive UpdateFault where
  /-- `PinnedPID constructed with empty vertex set`. -/
  | emptyVertexSet
  /-- A vertex that is not in the graph, or the end of a `PinnedPIDSet`, is used. -/
  | deadVertex
  /-- `reserve` gets a negative number. -/
  | lengthError
  /-- `Illegal state: must be exactly one vertex per pid`. -/
  | notOneVertex
  /-- No result of `get_routes`. -/
  | noRoutes
  deriving DecidableEq

/-- The value, or a fault. -/
def orFault {T : Type} (fault : UpdateFault) : Option T → Except UpdateFault T
  | none => .error fault
  | some x => .ok x

/-- `ViewUpdateBase`: the network state of the server, the copy that is modified, and the number of the
next temporary PID. -/
structure ViewUpdate where
  netOrig : NetState
  net : NetState
  lastTempPid : Nat := 0

/-- The output parameters of `find_pids`. -/
structure FoundPids where
  internal : StdSet PID := ∅
  external : StdSet PID := ∅
  all : StdSet PID := ∅
  pids : PinnedPIDSet := []

namespace ViewUpdate

/-! ## Finding the PIDs -/

/-- The vertices of a record that exist. -/
def recordVertices (net : NetState) (record : PIDRecord) : StdSet NetVertex :=
  (record.vertices.toList.filterMap net.getNode).foldl (fun s v => s.insert v) ∅

/-- One round of `find_pids`: a PID is external if one of its vertices is. -/
def findRecord (state : ViewUpdate × FoundPids) (entry : PID × PIDRecord) :
    Except UpdateFault (ViewUpdate × FoundPids) := do
  let (u, found) := state
  let verts := recordVertices u.net entry.2
  let external ← verts.toList.mapM fun v => orFault .deadVertex (u.net.getExternal v)
  let pid : PID := ⟨entry.1.isp, entry.1.num, external.any id⟩
  let net ← verts.toList.foldlM (fun net v => orFault .deadVertex (net.setPid v pid)) u.net
  let p ← orFault .emptyVertexSet (PinnedPID.ofSet pid verts)
  return ({ u with net },
    { internal := if pid.external then found.internal else found.internal.insert pid
      external := if pid.external then found.external.insert pid else found.external
      all := found.all.insert pid
      pids := found.pids.insert p })

/-- `ViewUpdateBase::find_pids`. -/
def findPids (u : ViewUpdate) (agg : PIDAggregation) : Except UpdateFault (ViewUpdate × FoundPids) :=
  agg.pidRecords.byPid.toList.foldlM findRecord (u, {})

/-! ## Aggregating the topology -/

/-- The name of an aggregated vertex: `boost::lexical_cast<std::string>(pid)`. -/
def vertexName (pid : PID) : String := String.ofList pid.toText

/-- The loop of `aggregate_topology`. -/
def aggregateLoop (libs : ViewLibs) :
    List PinnedPID → ViewUpdate → PinnedPIDSet → Except UpdateFault (Option (ViewUpdate × PinnedPIDSet))
  | [], u, aggPids => .ok (some (u, aggPids))
  | p :: ps, u, aggPids => do
    match ← orFault .deadVertex (u.net.aggregateNode libs.rnd p.vertices (vertexName p.pid)) with
    | (none, _) => .ok none
    | (some v, net) =>
      let net ← orFault .deadVertex (net.setExternal v p.pid.external)
      let net ← orFault .deadVertex (net.setPid v p.pid)
      aggregateLoop libs ps { u with net } (aggPids.insert (.ofVertex p.pid v))

/-- `ViewUpdateBase::aggregate_topology`. -/
def aggregateTopology (libs : ViewLibs) (u : ViewUpdate) (unaggPids : PinnedPIDSet) :
    Except UpdateFault (Option (ViewUpdate × PinnedPIDSet)) :=
  aggregateLoop libs (libs.iter unaggPids) u []

/-! ## Vertices without a PID -/

/-- The vertices of the pinned PIDs. -/
def pinnedVertices (pids : PinnedPIDSet) : StdSet NetVertex :=
  pids.foldl (fun s p => p.vertices.toList.foldl (fun s v => s.insert v) s) ∅

/-- One round of `handle_extra_nodes`: the pinned PIDs, and the vertices to remove. -/
def extraNode (action : ExtraNodeAction) (aggVerts : StdSet NetVertex)
    (state : ViewUpdate × PinnedPIDSet × List NetVertex) (v : NetVertex) :
    Except UpdateFault (ViewUpdate × PinnedPIDSet × List NetVertex) := do
  let (u, pids, removeVerts) := state
  if v ∈ aggVerts then .ok (u, pids, removeVerts)
  else if ← orFault .deadVertex (u.net.getExternal v) then .ok (u, pids, removeVerts ++ [v])
  else
    match action with
    | .remove => .ok (u, pids, removeVerts ++ [v])
    | .ignore =>
      let tmp : PID := ⟨"temp.pid", u.lastTempPid, false⟩
      let net ← orFault .deadVertex (u.net.setPid v tmp)
      .ok ({ u with net, lastTempPid := u.lastTempPid + 1 }, pids.insert (.ofVertex tmp v), removeVerts)

/-- `ViewUpdateBase::handle_extra_nodes`. -/
def handleExtraNodes (action : ExtraNodeAction) (u : ViewUpdate) (pids : PinnedPIDSet) :
    Except UpdateFault (ViewUpdate × PinnedPIDSet) := do
  let aggVerts := pinnedVertices pids
  if u.net.getNodes.length < aggVerts.size then .error .lengthError
  else
    let (u, pids, removeVerts) ← u.net.getNodes.foldlM (extraNode action aggVerts) (u, pids, [])
    let net ← removeVerts.foldlM (fun net v => orFault .deadVertex (net.removeVertex v)) u.net
    .ok ({ u with net }, pids)

/-! ## Static routes -/

/-- The hops of one route: an edge is looked up from each hop back to the one before it. -/
def verifyRoute (net : NetState) (pids : PinnedPIDSet) :
    Option NetVertex → List PID → Except UpdateFault Bool
  | _, [] => .ok true
  | prev, hop :: hops =>
    match pids.find hop with
    | none => .ok false
    | some p =>
      if p.vertices.size ≠ 1 then .error .notOneVertex
      else
        match prev with
        | none => verifyRoute net pids (some p.getVertex) hops
        | some prevHop =>
          if p.getVertex ∉ net.graph.verts then .error .deadVertex
          else
            match net.getEdgeBetween p.getVertex prevHop with
            | none => .ok false
            | some _ => verifyRoute net pids (some p.getVertex) hops

/-- `ViewUpdateBase::verify_static_routing`. -/
def verifyStaticRouting (net : NetState) (pids : PinnedPIDSet) :
    List StaticRoute → Except UpdateFault Bool
  | [] => .ok true
  | route :: routes => do
    if ← verifyRoute net pids none route.route then verifyStaticRouting net pids routes
    else .ok false

/-! ## pDistances -/

/-- `ViewUpdateBase::find_interdomain_links`. -/
def findInterdomainLinks (net : NetState) : Except UpdateFault (List (PID × PID)) := do
  let links ← net.graph.edgeList.mapM fun e => do
    let src ← orFault .deadVertex (net.getPid e.1.src)
    let dst ← orFault .deadVertex (net.getPid e.1.dst)
    return (src, dst)
  return links.filter fun l => l.1.external != l.2.external

/-- The pDistance of a link: the static one if it is defined, else the dynamic one if it is defined,
else a default. -/
def linkPDistance (static dynamic : PIDMatrix) (dflt : Double) (src dst : PID) : Double :=
  if static.getByPid src dst .nan ≠ .nan then static.getByPid src dst .nan
  else if dynamic.getByPid src dst .nan ≠ .nan then dynamic.getByPid src dst .nan
  else dflt

/-- The loop along a route. -/
def tracePDistance (rnd : ℚ → Double) (cost : PID → PID → Double) : Double → List PID → Double
  | p, src :: dst :: hops => tracePDistance rnd cost (p.add rnd (cost src dst)) (dst :: hops)
  | p, _ => p

/-- What `compute_pdistances` reads: the routes, the static and the dynamic pDistances of links, and
the properties of the view. -/
structure Inputs where
  libs : ViewLibs
  net : NetState
  pids : PinnedPIDSet
  routing : PIDRouting
  static : PIDMatrix
  dynamic : PIDMatrix
  view : View

/-- The matrices that are filled, and the context of the route computation. -/
structure Matrices where
  intra : PIDMatrix
  inter : PIDMatrix
  ctx : RouteContext := {}

/-- The pDistance between two internal PIDs. -/
def intraPDistance (inp : Inputs) (ctx : RouteContext) (src dst : IndexedPID) : Double :=
  if src.index = dst.index then inp.view.defaultIntrapidPDistance
  else
    match ctx.result[dst.pid]? with
    | none => inp.view.defaultInterpidPDistance
    | some route =>
      tracePDistance inp.libs.rnd
        (linkPDistance inp.static inp.dynamic inp.view.defaultPidlinkPDistance) 0 (route.map (·.pid))

/-- The pDistance from an internal PID to an external one: the link from the next-to-last hop, and the
way there. -/
def egressPDistance (inp : Inputs) (m : Matrices) (src dst : PID) : Double :=
  match (m.ctx.result[dst]?).bind (·.reverse[1]?) with
  | none => inp.view.defaultInterdomainPDistance
  | some egress =>
    if inp.view.interdomainIncludesIntradomain then
      (m.inter.getByPid egress.pid dst .nan).add inp.libs.rnd (m.intra.getByPid src egress.pid .nan)
    else m.inter.getByPid egress.pid dst .nan

/-- The pDistance from an external PID to an internal one: the link to the second hop, and the way from
there. -/
def ingressPDistance (inp : Inputs) (m : Matrices) (src dst : PID) : Double :=
  match (m.ctx.result[dst]?).bind (·[1]?) with
  | none => inp.view.defaultInterdomainPDistance
  | some egress =>
    if inp.view.interdomainIncludesIntradomain then
      (m.inter.getByPid src egress.pid .nan).add inp.libs.rnd (m.intra.getByPid egress.pid dst .nan)
    else m.inter.getByPid src egress.pid .nan

/-- An interdomain pDistance that is not defined by a link. -/
def setInter (pdistance : Matrices → PID → PID → Double) (m : Matrices) (src dst : PID) : Matrices :=
  if m.inter.getByPid src dst .nan ≠ .nan then m
  else { m with inter := (m.inter.setByPid src dst (pdistance m src dst)).2 }

/-- The routes from a source. -/
def routesFrom (inp : Inputs) (m : Matrices) (src : PID) : Except UpdateFault Matrices := do
  let p ← orFault .deadVertex (inp.pids.find src)
  let (_, ctx) ← orFault .noRoutes (inp.routing.getRoutes inp.libs p inp.net inp.pids m.ctx)
  return { m with ctx }

/-- One round of the loop over the internal PIDs. -/
def fromInternal (inp : Inputs) (external : StdSet PID) (m : Matrices) (src : IndexedPID) :
    Except UpdateFault Matrices := do
  let m ← routesFrom inp m src.pid
  let m := m.intra.pids.foldl
    (fun (m : Matrices) dst => { m with intra := m.intra.set src dst (intraPDistance inp m.ctx src dst) })
    m
  return external.toList.foldl (fun m dst => setInter (egressPDistance inp) m src.pid dst) m

/-- One round of the loop over the PIDs of the interdomain matrix, of which only external ones count. -/
def fromExternal (inp : Inputs) (m : Matrices) (src : IndexedPID) : Except UpdateFault Matrices :=
  if src.pid.external then do
    let m ← routesFrom inp m src.pid
    return m.intra.pids.foldl (fun m dst => setInter (ingressPDistance inp) m src.pid dst.pid) m
  else .ok m

/-- The pDistances of the interdomain links. -/
def setLinks (inp : Inputs) (links : List (PID × PID)) (inter : PIDMatrix) : PIDMatrix :=
  links.foldl
    (fun inter l => (inter.setByPid l.1 l.2
      (linkPDistance inp.static inp.dynamic inp.view.defaultInterdomainPDistance l.1 l.2)).2)
    inter

/-- `ViewUpdateBase::compute_pdistances`. -/
def computePDistances (inp : Inputs) (external : StdSet PID) (intra inter : PIDMatrix) :
    Except UpdateFault Matrices := do
  let links ← findInterdomainLinks inp.net
  let m : Matrices := { intra, inter := setLinks inp links inter }
  let m ← m.intra.pids.foldlM (fromInternal inp external) m
  m.inter.pids.foldlM (fromExternal inp) m

/-! ## The result -/

/-- The topology of the view: the PIDs of the view, the pinned PIDs and the network state. `none` if
the aggregation fails. -/
def prepare (libs : ViewLibs) (net : NetState) (view : View) (agg : PIDAggregation) :
    Except UpdateFault (Option (ViewUpdate × FoundPids × PinnedPIDSet)) := do
  let (u, found) ← findPids { netOrig := net, net := net.doCopyProperties } agg
  match ← aggregateTopology libs u found.pids with
  | none => return none
  | some (u, pids) => do
    let (u, pids) ← handleExtraNodes view.extraNodeAction u pids
    return some (u, found, pids)

/-- `ViewUpdateBase::compute_result`: the intradomain and the interdomain pDistances, or a failure. -/
def computeResult (libs : ViewLibs) (plugin : NetState → PinnedPIDSet → PIDMatrix) (net : NetState)
    (view : View) (agg : PIDAggregation) (routing : PIDRouting) (link : PIDMatrix) :
    Except UpdateFault (Option (PIDMatrix × PIDMatrix)) := do
  match ← prepare libs net view agg with
  | none => return none
  | some (u, found, pids) =>
    if ← verifyStaticRouting u.net pids routing.staticRoutes then
      let dynamic := if view.pluginName = "" then .empty else plugin u.net pids
      let inp : Inputs := ⟨libs, u.net, pids, routing, link, dynamic, view⟩
      let m ← computePDistances inp found.external (PIDMatrix.empty.setPids found.internal)
        (PIDMatrix.empty.setPids found.all)
      return some (m.intra, m.inter)
    else return none

end ViewUpdate

end Alto
