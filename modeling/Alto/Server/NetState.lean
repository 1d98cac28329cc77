import Alto.Common.Double
import Alto.Common.Prefix
import Alto.Lib.StdMap

/-!
# The network state

`common-server/src/include/p4pserver/net_state.h` and `common-server/src/lib/net_state.cpp`. The
graph is a `boost::adjacency_list<setS, listS, bidirectionalS>`: vertex descriptors stay valid until
the vertex is removed, there is at most one edge between two vertices, and an edge descriptor names
its two ends and the object that holds its properties. Descriptors are numbers that are handed out
once, so a greater number is a later object; a copy of the graph keeps the order of its vertices and
edges. A descriptor that is not in the graph must not be passed to an operation; the operation then
has no result (`none`).
-/

namespace Alto

open Lib

/-- The properties of a vertex. -/
structure VertexProps where
  external : Bool
  name : String
  pid : PID
  deriving DecidableEq

/-- The properties of an edge. -/
structure EdgeProps where
  name : String
  traffic : Double
  capacity : Double
  deriving DecidableEq

abbrev NetVertex := Nat

/-- An edge descriptor: source, target and the number of the property object. -/
structure NetEdge where
  src : NetVertex
  dst : NetVertex
  prop : Nat
  deriving DecidableEq

/-- `NetGraph`. An edge is found under its two ends, with its property object. -/
structure NetGraph where
  verts : StdMap NetVertex VertexProps
  edges : StdMap (NetVertex ×ₗ NetVertex) (Nat × EdgeProps)
  next : Nat
  deriving DecidableEq

/-- `NetState`: the graph and the two name maps. -/
structure NetState where
  graph : NetGraph
  nameVertMap : StdMap String NetVertex
  nameEdgeMap : StdMap String NetEdge
  deriving DecidableEq

namespace NetGraph

def empty : NetGraph := ⟨∅, ∅, 0⟩

/-- The properties of an edge, if the descriptor is in the graph. -/
def edge? (g : NetGraph) (e : NetEdge) : Option EdgeProps :=
  match g.edges[toLex (e.src, e.dst)]? with
  | some (prop, props) => if prop = e.prop then some props else none
  | none => none

/-- `NetState::get_name` of a vertex. -/
def vertexName (g : NetGraph) (v : NetVertex) : Option String := g.verts[v]?.map (·.name)

/-- `NetState::get_name` of an edge. -/
def edgeName (g : NetGraph) (e : NetEdge) : Option String := (g.edge? e).map (·.name)

/-- `boost::put` on an edge property. -/
def putEdge (g : NetGraph) (e : NetEdge) (props : EdgeProps) : NetGraph :=
  { g with edges := g.edges.insert (toLex (e.src, e.dst)) (e.prop, props) }

/-- `boost::add_vertex`, followed by the `boost::put` of its name. -/
def addVertex (g : NetGraph) (name : String) : NetVertex × NetGraph :=
  (g.next,
    { g with verts := g.verts.insert g.next ⟨false, name, default⟩, next := g.next + 1 })

/-- `boost::add_edge`: the edge between the two vertices and whether it is new. -/
def addEdge (g : NetGraph) (src dst : NetVertex) : NetEdge × Bool × NetGraph :=
  match g.edges[toLex (src, dst)]? with
  | some (prop, _) => (⟨src, dst, prop⟩, false, g)
  | none =>
    (⟨src, dst, g.next⟩, true,
      { g with
        edges := g.edges.insert (toLex (src, dst)) (g.next, ⟨"", 0, 0⟩), next := g.next + 1 })

/-- `clear_vertex` and `remove_vertex`. -/
def removeVertex (g : NetGraph) (v : NetVertex) : NetGraph :=
  { g with
    verts := g.verts.erase v
    edges := g.edges.filter fun k _ => (ofLex k).1 ≠ v ∧ (ofLex k).2 ≠ v }

/-- `boost::remove_edge`. -/
def removeEdge (g : NetGraph) (e : NetEdge) : NetGraph :=
  { g with edges := g.edges.erase (toLex (e.src, e.dst)) }

/-- The edges of the graph as descriptors with their properties, by source and target: the order of
the sets in which a vertex keeps its edges. -/
def edgesByEnds (g : NetGraph) : List (NetEdge × EdgeProps) :=
  g.edges.toList.map fun x => (⟨(ofLex x.1).1, (ofLex x.1).2, x.2.1⟩, x.2.2)

/-- `boost::edges`: the list of all edges, to whose end `boost::add_edge` appends. -/
def edgeList (g : NetGraph) : List (NetEdge × EdgeProps) :=
  g.edgesByEnds.insertionSort fun x y => x.1.prop ≤ y.1.prop

end NetGraph

namespace NetState

/-- A new network state. -/
def empty : NetState := ⟨.empty, ∅, ∅⟩

/-- `NetState::get_node`. -/
def getNode (net : NetState) (name : String) : Option NetVertex := net.nameVertMap[name]?

/-- `NetState::get_edge(name)`. -/
def getEdge (net : NetState) (name : String) : Option NetEdge := net.nameEdgeMap[name]?

/-- `NetState::get_edge(src, dst)` on vertices. -/
def getEdgeBetween (net : NetState) (src dst : NetVertex) : Option NetEdge :=
  net.graph.edges[toLex (src, dst)]?.map fun x => ⟨src, dst, x.1⟩

/-- `NetState::add_node`: the new vertex, or nothing if the name exists already. -/
def addNode (net : NetState) (name : String) : Option NetVertex × NetState :=
  match net.getNode name with
  | some _ => (none, net)
  | none =>
    (some (net.graph.addVertex name).1,
      { net with
        graph := (net.graph.addVertex name).2
        nameVertMap := net.nameVertMap.insertIfNew name (net.graph.addVertex name).1 })

/-- `NetState::set_external`. -/
def setExternal (net : NetState) (v : NetVertex) (value : Bool) : Option NetState :=
  if v ∈ net.graph.verts then
    some { net with
      graph := { net.graph with
        verts := net.graph.verts.modify v fun p => { p with external := value } } }
  else none

/-- `NetState::set_pid`. -/
def setPid (net : NetState) (v : NetVertex) (value : PID) : Option NetState :=
  if v ∈ net.graph.verts then
    some { net with
      graph := { net.graph with
        verts := net.graph.verts.modify v fun p => { p with pid := value } } }
  else none

/-- `NetState::set_name` on a vertex. -/
def setVertexName (net : NetState) (v : NetVertex) (value : String) : Option NetState :=
  net.graph.verts[v]?.map fun p =>
    { net with
      graph := { net.graph with verts := net.graph.verts.insert v { p with name := value } }
      nameVertMap := (net.nameVertMap.erase p.name).insertIfNew value v }

/-- `NetState::set_name` on an edge. -/
def setEdgeName (net : NetState) (e : NetEdge) (value : String) : Option NetState :=
  (net.graph.edge? e).map fun p =>
    { net with
      graph := net.graph.putEdge e { p with name := value }
      nameEdgeMap := (net.nameEdgeMap.erase p.name).insertIfNew value e }

/-- `NetState::set_traffic`. -/
def setTraffic (net : NetState) (e : NetEdge) (value : Double) : Option NetState :=
  (net.graph.edge? e).map fun p =>
    { net with graph := net.graph.putEdge e { p with traffic := value } }

/-- `NetState::set_capacity`. -/
def setCapacity (net : NetState) (e : NetEdge) (value : Double) : Option NetState :=
  (net.graph.edge? e).map fun p =>
    { net with graph := net.graph.putEdge e { p with capacity := value } }

/-- `NetState::remove_node(vertex)`. -/
def removeVertex (net : NetState) (v : NetVertex) : Option NetState :=
  net.graph.verts[v]?.map fun p =>
    { net with graph := net.graph.removeVertex v, nameVertMap := net.nameVertMap.erase p.name }

/-- `NetState::remove_node(name)`. -/
def removeNode (net : NetState) (name : String) : Option (Bool × NetState) :=
  match net.getNode name with
  | none => some (false, net)
  | some v => (net.removeVertex v).map fun net => (true, net)

/-- `NetState::add_edge` on vertices. The default properties are traffic 0 and capacity 1. -/
def addEdge (net : NetState) (src dst : NetVertex) : Option (Option NetEdge × NetState) :=
  if src ∈ net.graph.verts ∧ dst ∈ net.graph.verts then
    match net.graph.addEdge src dst with
    | (_, false, _) => some (none, net)
    | (e, true, g) => some (some e, { net with graph := g.putEdge e ⟨"", 0, 1⟩ })
  else none

/-- `NetState::add_edge` on names. -/
def addEdgeByName (net : NetState) (src dst : String) : Option (Option NetEdge × NetState) :=
  match net.getNode src, net.getNode dst with
  | some s, some d => net.addEdge s d
  | _, _ => some (none, net)

/-- `NetState::remove_edge(edge)`. -/
def removeEdge (net : NetState) (e : NetEdge) : Option NetState :=
  (net.graph.edge? e).map fun _ => { net with graph := net.graph.removeEdge e }

/-- `NetState::remove_edge(src, dst)` on names. -/
def removeEdgeByName (net : NetState) (src dst : String) : Option (Bool × NetState) :=
  match (do net.getEdgeBetween (← net.getNode src) (← net.getNode dst)) with
  | none => some (false, net)
  | some e => (net.removeEdge e).map fun net => (true, net)

/-! ## Aggregation -/

/-- One edge copied by `aggregate_node`: traffic and capacity are added to those of an edge that is
already there. -/
def mergeEdge (rnd : ℚ → Double) (g : NetGraph) (src dst : NetVertex) (p : EdgeProps) : NetGraph :=
  match g.addEdge src dst with
  | (e, true, g) => g.putEdge e ⟨"", p.traffic, p.capacity⟩
  | (e, false, g) =>
    match g.edge? e with
    | some q =>
      g.putEdge e ⟨q.name, q.traffic.add rnd p.traffic, q.capacity.add rnd p.capacity⟩
    | none => g

/-- Copy the edges of `v` that leave the set to the aggregate `agg`: first incoming, then
outgoing. -/
def copyEdges (rnd : ℚ → Double) (vertices : StdSet NetVertex) (agg : NetVertex) (g : NetGraph)
    (v : NetVertex) : NetGraph :=
  let g := (g.edgesByEnds.filter fun x => x.1.dst = v ∧ x.1.src ∉ vertices).foldl
    (fun g x => mergeEdge rnd g x.1.src agg x.2) g
  (g.edgesByEnds.filter fun x => x.1.src = v ∧ x.1.dst ∉ vertices).foldl
    (fun g x => mergeEdge rnd g agg x.1.dst x.2) g

/-- `NetState::aggregate_node`. -/
def aggregateNode (rnd : ℚ → Double) (net : NetState) (vertices : StdSet NetVertex)
    (name : String) : Option (Option NetVertex × NetState) :=
  match vertices.toList with
  | [v] => (net.setVertexName v name).map fun net => (some v, net)
  | vs =>
    match net.addNode name with
    | (none, net) => some (none, net)
    | (some v, net) =>
      if vs.all (· ∈ net.graph.verts) then
        let net := { net with graph := vs.foldl (copyEdges rnd vertices v) net.graph }
        (vs.foldlM removeVertex net).map fun net => (some v, net)
      else none

/-! ## Copying -/

/-- `NetState::refresh_names`. Of several vertices or edges with one name the last one stays. -/
def refreshNames (net : NetState) : NetState :=
  { net with
    nameVertMap := net.graph.verts.toList.foldl (fun m x => m.insert x.2.name x.1) ∅
    nameEdgeMap := net.graph.edgeList.foldl (fun m x => m.insert x.2.name x.1) net.nameEdgeMap }

/-- `NetState::do_copy_properties`: the copied graph with fresh name maps. -/
def doCopyProperties (net : NetState) : NetState := refreshNames { empty with graph := net.graph }

end NetState

end Alto
