import Alto.Server.PIDMatrix
import Alto.Server.PIDRoutes

/-!
# The MLU plugin

`portal/server/src/pdist/mlu/mlu.h` and `mlu.cpp`, with the edge pDistances of
`portal/server/src/pdist/plugin_base.h`. `rnd` rounds the exact results of the arithmetic.
-/

namespace Alto.Portal

/-- `MLUPlugin`, with the matrix of `OptPluginBase`. -/
structure MLUPlugin where
  mu : Double
  alpha : Double
  scaledEdgePDistances : PIDMatrix
  scaling : PIDMatrix
  edgePDistances : PIDMatrix

namespace MLUPlugin

/-- `MLUPlugin::INIT_PDISTANCE`. -/
def initPDistance : Double := 0

/-- `MLUPlugin::INIT_SCALING`. -/
def initScaling : Double := 1

/-- `MLUPlugin::EPS`. -/
def eps : Double := .fin (1 / 10 ^ 12)

/-- A new plugin: its matrices have no PIDs. -/
def new (mu : Double) : MLUPlugin := ⟨mu, 0, .empty, .empty, .empty⟩

/-- `MLUPlugin::set_mu`. -/
def setMu (plugin : MLUPlugin) (mu : Double) : MLUPlugin := { plugin with mu }

/-- The PIDs of the two vertices of an edge. They are in the graph. -/
def edgePids (net : NetState) (e : NetEdge) : PID × PID :=
  ((net.getPid e.src).getD default, (net.getPid e.dst).getD default)

variable (rnd : ℚ → Double) (plugin : MLUPlugin) (net : NetState) (e : NetEdge)

/-- `MLUPlugin::get_scaled_edge_pdistance`. -/
def getScaledEdgePDistance : Double :=
  plugin.scaledEdgePDistances.getByPid (edgePids net e).1 (edgePids net e).2 initPDistance

/-- `MLUPlugin::set_scaled_edge_pdistance`. What `set_by_pid` returns is ignored. -/
def setScaledEdgePDistance (pdistance : Double) : MLUPlugin :=
  { plugin with
    scaledEdgePDistances :=
      (plugin.scaledEdgePDistances.setByPid (edgePids net e).1 (edgePids net e).2 pdistance).2 }

/-- `MLUPlugin::get_edge_scaling`. -/
def getEdgeScaling : Double :=
  plugin.scaling.getByPid (edgePids net e).1 (edgePids net e).2 initScaling

/-- `MLUPlugin::get_edge_pdistance`. -/
def getEdgePDistance : Double :=
  (plugin.getScaledEdgePDistance net e).div rnd (plugin.getEdgeScaling net e)

/-- `MLUPlugin::set_edge_scaling`; it throws if the factor is below `EPS`. -/
def setEdgeScaling (scaling : Double) : Option MLUPlugin :=
  if scaling.lt eps then none
  else
    let plugin := plugin.setScaledEdgePDistance net e ((plugin.getEdgePDistance rnd net e).mul rnd scaling)
    some { plugin with
      scaling := (plugin.scaling.setByPid (edgePids net e).1 (edgePids net e).2 scaling).2 }

/-- The first loop of `compute_pdistances`. An edge whose factor is refused ends it. -/
def setScalings : List (NetEdge × EdgeProps) → MLUPlugin → Bool × MLUPlugin
  | [], plugin => (true, plugin)
  | (e, props) :: edges, plugin =>
    match plugin.setEdgeScaling rnd net e props.capacity with
    | none => (false, plugin)
    | some plugin => setScalings edges plugin

/-- `MLUPlugin::compute_mlu`. -/
def computeMlu : Double :=
  net.graph.edgeList.foldl (fun mlu x =>
    let lu := x.2.traffic.div rnd x.2.capacity
    if mlu.lt lu then lu else mlu) 0

/-- The super-gradient step of an edge, with the sum so far. -/
def supergradient (mlu : Double) (acc : MLUPlugin × Double) (x : NetEdge × EdgeProps) :
    MLUPlugin × Double :=
  let (plugin, sum) := acc
  let p := (plugin.getScaledEdgePDistance net x.1).add rnd
    (plugin.mu.mul rnd ((x.2.traffic.div rnd x.2.capacity).sub rnd mlu))
  let p := if p.isNeg then 0 else p
  (plugin.setScaledEdgePDistance net x.1 p, sum.add rnd p)

/-- The projection of an edge, with the sum of all. -/
def project (sum : Double) (numEdges : Nat) (plugin : MLUPlugin) (x : NetEdge × EdgeProps) :
    MLUPlugin :=
  let p := plugin.getScaledEdgePDistance net x.1
  plugin.setScaledEdgePDistance net x.1
    (if eps.lt sum then p.div rnd sum else (1 : Double).div rnd (.fin numEdges))

/-- The unscaled pDistance of an edge. -/
def publish (plugin : MLUPlugin) (x : NetEdge × EdgeProps) : MLUPlugin :=
  let (src, dst) := edgePids net x.1
  { plugin with
    edgePDistances := (plugin.edgePDistances.setByPid src dst
      ((plugin.scaledEdgePDistances.getByPid src dst .nan).div rnd
        (plugin.scaling.getByPid src dst .nan))).2 }

/-- `MLUPlugin::update_scaled_edge_pdistance`. -/
def updateScaledEdgePDistance (mlu : Double) : MLUPlugin :=
  let edges := net.graph.edgeList
  let (plugin, sum) := edges.foldl (supergradient rnd net mlu) (plugin, 0)
  let plugin := edges.foldl (project rnd net sum edges.length) plugin
  edges.foldl (publish rnd net) plugin

/-- `MLUPlugin::compute_pdistances`: 0, or -1 if something is thrown. -/
def computePDistances : Int × MLUPlugin :=
  match setScalings rnd net net.graph.edgeList plugin with
  | (false, plugin) => (-1, plugin)
  | (true, plugin) =>
    let alpha := computeMlu rnd net
    (0, updateScaledEdgePDistance rnd { plugin with alpha } net alpha)

end MLUPlugin

end Alto.Portal
