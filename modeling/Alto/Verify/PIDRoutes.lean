import Mathlib
import Alto.Lib.MapEntries
import Alto.Lib.ShortestPath
import Alto.Verify.NetGraph

/-!
# Routes by weights

What `get_routes_weights` stores, under the documented behaviour of `dijkstra_shortest_paths`: for
every pinned PID that can be reached from the source, a shortest route. A context that was used for
other sources gives the same routes as a fresh one.
-/

namespace Alto

open Lib Relation

/-! ## Pinned PIDs -/

namespace PinnedPID

theorem getVertex_mem (p : PinnedPID) : p.getVertex ∈ p.vertices :=
  Std.ExtTreeSet.mem_toList.1 (List.head_mem _)

@[simp] theorem pid_ofVertex (pid : PID) (v : NetVertex) : (ofVertex pid v).pid = pid := rfl

@[simp] theorem getVertex_ofVertex (pid : PID) (v : NetVertex) : (ofVertex pid v).getVertex = v := by
  have h : (ofVertex pid v).getVertex ∈ (∅ : StdSet NetVertex).insert v := getVertex_mem _
  rw [StdSet.mem_insert] at h
  rcases h with h | h
  · exact h.symm
  · exact absurd h Std.ExtTreeSet.not_mem_empty

end PinnedPID

theorem PinnedPIDSet.pid_of_find {pids : PinnedPIDSet} {pid : PID} {p : PinnedPID}
    (h : pids.find pid = some p) : p ∈ pids ∧ p.pid = pid :=
  ⟨List.mem_of_find?_eq_some h, by simpa using List.find?_some h⟩

/-! ## What Boost gets and returns -/

namespace NetGraph

/-- The indexes of the vertices are the numbers below the number of vertices. -/
structure IndexMap (g : NetGraph) (idxs : StdMap NetVertex Nat) : Prop where
  lt : ∀ v ∈ g.verts, ∃ i < g.verts.size, idxs[v]? = some i
  inj : ∀ (u v : NetVertex) (i : Nat), idxs[u]? = some i → idxs[v]? = some i → u = v

/-- The weights of the edges are the non-negative numbers that `w` gives. -/
def WeightMap (g : NetGraph) (weights : StdMap (NetVertex ×ₗ NetVertex) Double)
    (w : NetVertex → NetVertex → ℚ) : Prop :=
  ∀ u v, g.Edge u v → 0 ≤ w u v ∧ weights[toLex (u, v)]? = some (.fin (w u v))

end NetGraph

/-- `dijkstra_shortest_paths` on a graph with weights: with indexes, and if the weights are not
negative, the predecessors are a tree of shortest paths. -/
def ViewLibs.DijkstraSpec (libs : ViewLibs) (g : NetGraph)
    (weights : StdMap (NetVertex ×ₗ NetVertex) Double) : Prop :=
  ∀ src ∈ g.verts, ∀ idxs w, g.IndexMap idxs → g.WeightMap weights w →
    ∃ pred, libs.dijkstra g src idxs weights = some pred ∧ (∀ v ∈ g.verts, pred v ∈ g.verts) ∧
      ShortestPathTree g.Edge w src pred

/-! ## The maps of a context -/

namespace PIDRouting

variable {libs : ViewLibs} {r : PIDRouting} {net : NetState} {pids : PinnedPIDSet} {ctx : RouteContext}

/-- The weight of an edge: that of the PIDs of its ends. -/
def edgeWeight (r : PIDRouting) (net : NetState) (u v : NetVertex) : Double :=
  r.getWeight ((net.getPid u).getD default) ((net.getPid v).getD default)

/-- The weight of an edge as a number. -/
def edgeCost (r : PIDRouting) (net : NetState) (u v : NetVertex) : ℚ :=
  match r.edgeWeight net u v with
  | .fin q => q
  | _ => 0

/-- The weights of the edges are non-negative numbers. -/
def NonNegative (r : PIDRouting) (net : NetState) : Prop :=
  ∀ u v, net.graph.Edge u v → ∃ q, 0 ≤ q ∧ r.edgeWeight net u v = .fin q

theorem indexMap_fillContext : net.graph.IndexMap (r.fillContext net {}).vertIndexes := by
  have hfill : (r.fillContext net {}).vertIndexes =
      net.getNodes.zipIdx.foldl (fun m x => m.insert x.1 x.2) ∅ := by
    simp [fillContext]
  have hget := StdMap.get_foldl_insert (fun x : NetVertex × Nat => x.1) (fun x => x.2)
    net.getNodes.zipIdx ∅
  rw [hfill]
  constructor
  · intro v hv
    obtain ⟨i, hi, hiv⟩ := List.getElem_of_mem (Std.ExtTreeMap.mem_keys.2 hv)
    rcases hget v with ⟨x, hx, -, hres⟩ | ⟨hno, -⟩
    · refine ⟨x.2, ?_, hres⟩
      have hlt := List.snd_lt_of_mem_zipIdx hx
      rwa [Nat.add_zero, NetState.getNodes, Std.ExtTreeMap.length_keys] at hlt
    · refine absurd rfl (hno (v, i) ?_)
      rw [List.mk_mem_zipIdx_iff_getElem?, NetState.getNodes, List.getElem?_eq_getElem hi, hiv]
  · -- a vertex with the index `i` is the `i`-th vertex
    have hnode : ∀ (u : NetVertex) (i : Nat),
        (net.getNodes.zipIdx.foldl (fun m x => m.insert x.1 x.2) (∅ : StdMap NetVertex Nat))[u]? =
          some i → net.getNodes[i]? = some u := by
      intro u i hu
      rcases hget u with ⟨x, hx, rfl, hres⟩ | ⟨-, hres⟩
      · obtain rfl := Option.some.inj (hres.symm.trans hu)
        exact List.mem_zipIdx_iff_getElem?.1 hx
      · rw [hres] at hu
        simp at hu
    intro u v i hu hv
    exact Option.some.inj ((hnode u i hu).symm.trans (hnode v i hv))

theorem edgeWeights_fillContext {u v : NetVertex} (h : net.graph.Edge u v) :
    (r.fillContext net {}).edgeWeights[toLex (u, v)]? = some (r.edgeWeight net u v) := by
  have hfill : (r.fillContext net {}).edgeWeights = net.graph.edgeList.foldl
      (fun m x => m.insert (toLex (x.1.src, x.1.dst)) (r.edgeWeight net x.1.src x.1.dst)) ∅ := by
    simp [fillContext, edgeWeight]
  rw [hfill]
  rcases StdMap.get_foldl_insert
    (fun x : NetEdge × EdgeProps => toLex (x.1.src, x.1.dst))
    (fun x => r.edgeWeight net x.1.src x.1.dst) net.graph.edgeList ∅ (toLex (u, v)) with
    ⟨x, -, hkey, hres⟩ | ⟨hno, -⟩
  · obtain ⟨rfl, rfl⟩ := Prod.mk.inj (toLex.injective hkey)
    exact hres
  · obtain ⟨⟨i, props⟩, hget⟩ := StdMap.mem_iff_get.1 h
    refine absurd rfl (hno (⟨u, v, i⟩, props) ?_)
    refine NetState.mem_edgeList.2 ?_
    rw [NetState.edge?_eq_some]
    exact hget

theorem weightMap_fillContext (h : r.NonNegative net) :
    net.graph.WeightMap (r.fillContext net {}).edgeWeights (r.edgeCost net) := by
  intro u v huv
  obtain ⟨q, hq, hw⟩ := h u v huv
  have hcost : r.edgeCost net u v = q := by simp [edgeCost, hw]
  rw [hcost, edgeWeights_fillContext huv, hw]
  exact ⟨hq, rfl⟩

/-! ## One source -/

/-- The route to a pinned PID along predecessors. -/
def routeAlong (net : NetState) (pred : NetVertex → NetVertex) (src : NetVertex) (dst : PinnedPID) :
    Option PinnedRoute :=
  if pred dst.getVertex = dst.getVertex then none
  else do
    let back ← backTo pred src net.graph.verts.size (pred dst.getVertex)
    let hops ← (pred dst.getVertex :: back).mapM (pinVertex net)
    return (PinnedPID.ofVertex dst.pid dst.getVertex :: hops).reverse

/-- The predecessors of the vertices, as a map. -/
def PredMap (net : NetState) (preds : StdMap NetVertex NetVertex) (pred : NetVertex → NetVertex) :
    Prop :=
  ∀ v ∈ net.graph.verts, pred v ∈ net.graph.verts ∧ preds[v]? = some (pred v)

theorem traceBack_eq {preds : StdMap NetVertex NetVertex} {pred : NetVertex → NetVertex}
    (h : PredMap net preds pred) {src v : NetVertex} (hv : v ∈ net.graph.verts) (fuel : Nat) :
    traceBack preds src fuel v = backTo pred src fuel v := by
  induction fuel generalizing v with
  | zero => rfl
  | succ fuel ih =>
    obtain ⟨hmem, hget⟩ := h v hv
    rw [traceBack, backTo, hget]
    simp only [ih hmem]

theorem predMap_computeShortestPaths {preds preds' : StdMap NetVertex NetVertex} {src : NetVertex}
    {idxs : StdMap NetVertex Nat} {weights : StdMap (NetVertex ×ₗ NetVertex) Double}
    {pred : NetVertex → NetVertex} (hsrc : src ∈ net.graph.verts)
    (hpred : libs.dijkstra net.graph src idxs weights = some pred)
    (hmem : ∀ v ∈ net.graph.verts, pred v ∈ net.graph.verts)
    (h : net.computeShortestPaths libs src idxs preds weights = some preds') :
    PredMap net preds' pred := by
  rw [NetState.computeShortestPaths, if_pos hsrc, hpred, Option.map_some, Option.some.injEq] at h
  intro v hv
  refine ⟨hmem v hv, ?_⟩
  rcases StdMap.get_foldl_insert (fun v : NetVertex => v) pred net.getNodes preds v with
    ⟨x, -, rfl, hres⟩ | ⟨hno, -⟩
  · rw [← h]
    exact hres
  · exact absurd rfl (hno v (Std.ExtTreeMap.mem_keys.2 hv))

/-- The routes to some of the PIDs, stored one after the other. -/
def storeRoutes (f : PinnedPID → Option PinnedRoute) (l : List PinnedPID)
    (result : StdMap PID PinnedRoute) : StdMap PID PinnedRoute :=
  (l.filterMap fun d => (f d).map fun route => (d.pid, route)).foldl (fun m x => m.insert x.1 x.2)
    result

theorem get_storeRoutes {f : PinnedPID → Option PinnedRoute} {l : List PinnedPID}
    {result : StdMap PID PinnedRoute} (pid : PID) :
    (∃ d ∈ l, d.pid = pid ∧ ∃ route, f d = some route ∧ (storeRoutes f l result)[pid]? = some route) ∨
      (∀ d ∈ l, d.pid = pid → f d = none) ∧ (storeRoutes f l result)[pid]? = result[pid]? := by
  rcases StdMap.get_foldl_insert (fun x : PID × PinnedRoute => x.1) (fun x => x.2)
    (l.filterMap fun d => (f d).map fun route => (d.pid, route)) result pid with
    ⟨x, hx, rfl, hres⟩ | ⟨hno, hres⟩
  · obtain ⟨d, hd, heq⟩ := List.mem_filterMap.1 hx
    obtain ⟨route, hroute, rfl⟩ := Option.map_eq_some_iff.1 heq
    exact .inl ⟨d, hd, rfl, route, hroute, hres⟩
  · refine .inr ⟨fun d hd hpid => ?_, hres⟩
    rw [Option.eq_none_iff_forall_ne_some]
    intro route hroute
    exact hno (d.pid, route) (List.mem_filterMap.2 ⟨d, hd, by rw [hroute]; rfl⟩) hpid

/-- The loop stores the routes along the predecessors, if there is one to every PID that is not its
own predecessor. -/
theorem weightsLoop_eq {preds : StdMap NetVertex NetVertex} {pred : NetVertex → NetVertex}
    {src : NetVertex} (h : PredMap net preds pred) {l : List PinnedPID}
    (hl : ∀ d ∈ l, d.getVertex ∈ net.graph.verts)
    (hroute : ∀ d ∈ l, pred d.getVertex ≠ d.getVertex →
      ∃ route, routeAlong net pred src d = some route) (result : StdMap PID PinnedRoute) :
    weightsLoop net preds src l result = some (storeRoutes (routeAlong net pred src) l result) := by
  induction l generalizing result with
  | nil => rfl
  | cons d l ih =>
    have ih := ih (fun d hd => hl d (List.mem_cons_of_mem _ hd))
      fun d hd => hroute d (List.mem_cons_of_mem _ hd)
    obtain ⟨hmem, hget⟩ := h _ (hl d List.mem_cons_self)
    rw [weightsLoop, hget]
    simp only
    split
    · next hself =>
      have hnone : routeAlong net pred src d = none := if_pos hself
      rw [ih, storeRoutes, storeRoutes, List.filterMap_cons_none (by rw [hnone]; rfl)]
    · next hself =>
      obtain ⟨route, hr⟩ := hroute d List.mem_cons_self hself
      have htrace : traceRoute net preds src d (pred d.getVertex) = some route := by
        rw [← hr, routeAlong, if_neg hself, traceRoute, traceBack_eq h hmem]
      rw [htrace]
      simp only
      rw [ih, storeRoutes, storeRoutes, List.filterMap_cons_some (b := (d.pid, route))
        (by rw [hr]; rfl)]
      rfl

/-- `PinnedPID(state.get_pid(v), v)` of a vertex in the graph. -/
def pinned (net : NetState) (v : NetVertex) : PinnedPID :=
  .ofVertex ((net.getPid v).getD default) v

theorem mapM_pinVertex {l : List NetVertex} (h : ∀ v ∈ l, v ∈ net.graph.verts) :
    l.mapM (pinVertex net) = some (l.map (pinned net)) := by
  induction l with
  | nil => rfl
  | cons v l ih =>
    obtain ⟨props, hprops⟩ := StdMap.mem_iff_get.1 (h v List.mem_cons_self)
    have hpin : pinVertex net v = some (pinned net v) := by
      simp [pinVertex, pinned, NetState.getPid, hprops]
    rw [List.mapM_cons, hpin, ih fun v hv => h v (List.mem_cons_of_mem _ hv)]
    rfl

/-- The way back from the predecessor of a reached vertex ends at the source. -/
theorem exists_backTo {pred : NetVertex → NetVertex} {src v : NetVertex}
    (hback : ∃ n, pred^[n] v = src) (hmem : ∀ v ∈ net.graph.verts, pred v ∈ net.graph.verts)
    (hv : v ∈ net.graph.verts) : ∃ back, backTo pred src net.graph.verts.size v = some back := by
  have hkeys : ∀ v, v ∈ net.graph.verts.keys.toFinset ↔ v ∈ net.graph.verts := fun v => by
    rw [List.mem_toFinset, Std.ExtTreeMap.mem_keys]
  refine backTo_card (S := net.graph.verts.keys.toFinset) (fun u hu => ?_) ((hkeys v).2 hv) hback ?_
  · exact (hkeys _).2 (hmem u ((hkeys u).1 hu))
  · exact (List.toFinset_card_le _).trans_eq Std.ExtTreeMap.length_keys

/-- The route along predecessors that lead back to the source. -/
theorem routeAlong_eq {pred : NetVertex → NetVertex} {src : NetVertex} {d : PinnedPID}
    (hmem : ∀ v ∈ net.graph.verts, pred v ∈ net.graph.verts) (hd : d.getVertex ∈ net.graph.verts)
    (hself : pred d.getVertex ≠ d.getVertex) {back : List NetVertex}
    (hback : backTo pred src net.graph.verts.size (pred d.getVertex) = some back) :
    routeAlong net pred src d = some ((pred d.getVertex :: back).reverse.map (pinned net) ++
      [.ofVertex d.pid d.getVertex]) := by
  have hverts : ∀ v ∈ pred d.getVertex :: back, v ∈ net.graph.verts := by
    intro v hv
    rcases List.mem_cons.1 hv with rfl | hv
    · exact hmem _ hd
    · exact mem_of_backTo (P := (· ∈ net.graph.verts)) hmem (hmem _ hd) hback v hv
  have hhops := mapM_pinVertex hverts
  rw [routeAlong, if_neg hself]
  simp only [hback, hhops, Option.bind_eq_bind, Option.bind_some, Option.pure_def]
  simp

/-! ## Contexts -/

/-- A context that is fresh, or has the indexes and weights of this state. -/
def Ready (r : PIDRouting) (net : NetState) (ctx : RouteContext) : Prop :=
  (ctx.vertIndexes = ∅ ∧ ctx.edgeWeights = ∅) ∨
    (ctx.vertIndexes.isEmpty = false ∧ ctx.vertIndexes = (r.fillContext net {}).vertIndexes ∧
      ctx.edgeWeights = (r.fillContext net {}).edgeWeights)

theorem ready_fresh : r.Ready net {} := .inl ⟨rfl, rfl⟩

theorem fillContext_of_ready (h : r.Ready net ctx) :
    (r.fillContext net ctx).vertIndexes = (r.fillContext net {}).vertIndexes ∧
      (r.fillContext net ctx).edgeWeights = (r.fillContext net {}).edgeWeights := by
  rcases h with ⟨hidxs, hweights⟩ | ⟨hne, hidxs, hweights⟩
  · simp [fillContext, hidxs, hweights]
  · have hsame : r.fillContext net ctx = ctx := by simp [fillContext, hne]
    rw [hsame]
    exact ⟨hidxs, hweights⟩

theorem vertIndexes_nonempty {v : NetVertex} (hv : v ∈ net.graph.verts) :
    (r.fillContext net {}).vertIndexes.isEmpty = false := by
  obtain ⟨i, -, hi⟩ := indexMap_fillContext.lt v hv
  rw [Bool.eq_false_iff]
  exact StdMap.not_isEmpty_of_mem (StdMap.mem_iff_get.2 ⟨i, hi⟩)

/-- What `get_routes_weights` stores if the predecessors lead back to the source. -/
theorem getRoutesWeights_eq {src : PinnedPID} {pred : NetVertex → NetVertex} (hready : r.Ready net ctx)
    (hsrc : src.getVertex ∈ net.graph.verts)
    (hpred : libs.dijkstra net.graph src.getVertex (r.fillContext net {}).vertIndexes
      (r.fillContext net {}).edgeWeights = some pred)
    (hmem : ∀ v ∈ net.graph.verts, pred v ∈ net.graph.verts)
    (hback : ∀ v ∈ net.graph.verts, pred v ≠ v → ∃ n, pred^[n] (pred v) = src.getVertex)
    (hpids : ∀ d ∈ pids, d.getVertex ∈ net.graph.verts) :
    ∃ ctx', r.getRoutesWeights libs src net pids ctx = some ctx' ∧
      ctx'.result = storeRoutes (routeAlong net pred src.getVertex) (libs.iter pids) ∅ ∧
      r.Ready net ctx' := by
  obtain ⟨hidxs, hweights⟩ := fillContext_of_ready hready
  have hiter : ∀ d ∈ libs.iter pids, d.getVertex ∈ net.graph.verts :=
    fun d hd => hpids d ((libs.perm pids).mem_iff.1 hd)
  obtain ⟨preds, hcompute⟩ : ∃ preds, net.computeShortestPaths libs src.getVertex
      (r.fillContext net {}).vertIndexes (r.fillContext net ctx).vertPreds
      (r.fillContext net {}).edgeWeights = some preds := by
    rw [NetState.computeShortestPaths, if_pos hsrc, hpred]
    exact ⟨_, rfl⟩
  have hmap := predMap_computeShortestPaths hsrc hpred hmem hcompute
  have hroute : ∀ d ∈ libs.iter pids, pred d.getVertex ≠ d.getVertex →
      ∃ route, routeAlong net pred src.getVertex d = some route := by
    intro d hd hself
    obtain ⟨back, hb⟩ := exists_backTo (hback _ (hiter d hd) hself) hmem (hmem _ (hiter d hd))
    exact ⟨_, routeAlong_eq hmem (hiter d hd) hself hb⟩
  have hloop := weightsLoop_eq hmap hiter hroute ∅
  refine ⟨{ r.fillContext net ctx with
    vertPreds := preds
    result := storeRoutes (routeAlong net pred src.getVertex) (libs.iter pids) ∅ }, ?_, rfl, ?_⟩
  · simp only [getRoutesWeights, hidxs, hweights, hcompute, hloop, Option.bind_eq_bind,
      Option.bind_some, Option.pure_def]
  · exact .inr ⟨by rw [hidxs]; exact vertIndexes_nonempty hsrc, hidxs, hweights⟩

/-- A context that fits the state: it also has no predecessors of other vertices. -/
structure Fits (r : PIDRouting) (net : NetState) (ctx : RouteContext) : Prop where
  ready : r.Ready net ctx
  preds : ∀ v ∈ ctx.vertPreds, v ∈ net.graph.verts

theorem fits_fresh : r.Fits net {} :=
  ⟨ready_fresh, fun _ h => absurd h Std.ExtTreeMap.not_mem_empty⟩

/-- The stored predecessors of the vertices are those that `dijkstra_shortest_paths` returns. -/
theorem computeShortestPaths_preds {src : NetVertex} {preds preds' : StdMap NetVertex NetVertex}
    {idxs : StdMap NetVertex Nat} {weights : StdMap (NetVertex ×ₗ NetVertex) Double}
    (h : ∀ v ∈ preds, v ∈ net.graph.verts)
    (hcompute : net.computeShortestPaths libs src idxs preds weights = some preds') :
    src ∈ net.graph.verts ∧ ∃ pred, libs.dijkstra net.graph src idxs weights = some pred ∧
      ∀ v u, preds'[v]? = some u → v ∈ net.graph.verts ∧ u = pred v := by
  rw [NetState.computeShortestPaths] at hcompute
  split at hcompute
  · next hsrc =>
    obtain ⟨pred, hpred, rfl⟩ := Option.map_eq_some_iff.1 hcompute
    refine ⟨hsrc, pred, hpred, fun v u hu => ?_⟩
    rcases StdMap.get_foldl_insert (fun v : NetVertex => v) pred net.getNodes preds v with
      ⟨x, hx, rfl, hres⟩ | ⟨hno, hres⟩
    · exact ⟨Std.ExtTreeMap.mem_keys.1 hx, Option.some.inj (hu.symm.trans hres)⟩
    · rw [hres] at hu
      have hv := h v (StdMap.mem_iff_get.2 ⟨u, hu⟩)
      exact absurd rfl (hno v (Std.ExtTreeMap.mem_keys.2 hv))
  · cases hcompute

theorem backTo_of_traceBack {preds : StdMap NetVertex NetVertex} {pred : NetVertex → NetVertex}
    (h : ∀ v u, preds[v]? = some u → u = pred v) {src v : NetVertex} {fuel : Nat}
    {back : List NetVertex} (hback : traceBack preds src fuel v = some back) :
    backTo pred src fuel v = some back := by
  induction fuel generalizing v back with
  | zero => exact hback
  | succ fuel ih =>
    rw [traceBack] at hback
    rw [backTo]
    split at hback
    · next hv => rw [if_pos hv, hback]
    · next hv =>
      rw [if_neg hv]
      split at hback
      · cases hback
      · next u hu =>
        obtain ⟨rest, hrest, rfl⟩ := Option.map_eq_some_iff.1 hback
        obtain rfl := h v u hu
        rw [ih hrest]
        rfl

/-- A loop that ends has stored the routes along the predecessors. -/
theorem weightsLoop_result {preds : StdMap NetVertex NetVertex} {pred : NetVertex → NetVertex}
    (h : ∀ v u, preds[v]? = some u → u = pred v) {src : NetVertex} {l : List PinnedPID}
    {result result' : StdMap PID PinnedRoute}
    (hloop : weightsLoop net preds src l result = some result') :
    result' = storeRoutes (routeAlong net pred src) l result := by
  induction l generalizing result with
  | nil => exact (Option.some.inj hloop).symm
  | cons d l ih =>
    rw [weightsLoop] at hloop
    split at hloop
    · cases hloop
    · next u hu =>
      obtain rfl := h _ u hu
      split at hloop
      · next hself =>
        have hnone : routeAlong net pred src d = none := if_pos hself
        rw [ih hloop, storeRoutes, storeRoutes, List.filterMap_cons_none (by rw [hnone]; rfl)]
      · next hself =>
        split at hloop
        · cases hloop
        · next route htrace =>
          have hroute : routeAlong net pred src d = some route := by
            simp only [traceRoute, Option.bind_eq_bind] at htrace
            obtain ⟨back, hback, htrace⟩ := Option.bind_eq_some_iff.1 htrace
            rw [routeAlong, if_neg hself, backTo_of_traceBack h hback]
            exact htrace
          rw [ih hloop, storeRoutes, storeRoutes, List.filterMap_cons_some (b := (d.pid, route))
            (by rw [hroute]; rfl)]
          rfl

/-- The routes from a source are those along its predecessors, whatever the context was used for. -/
theorem Fits.getRoutesWeights (h : r.Fits net ctx) {src : PinnedPID} {ctx' : RouteContext}
    (hget : r.getRoutesWeights libs src net pids ctx = some ctx') :
    r.Fits net ctx' ∧ ∃ pred, libs.dijkstra net.graph src.getVertex
        (r.fillContext net {}).vertIndexes (r.fillContext net {}).edgeWeights = some pred ∧
      ctx'.result = storeRoutes (routeAlong net pred src.getVertex) (libs.iter pids) ∅ := by
  obtain ⟨hidxs, hweights⟩ := fillContext_of_ready h.ready
  have hfill : (r.fillContext net ctx).vertPreds = ctx.vertPreds := by
    unfold fillContext
    split <;> rfl
  have hpreds : ∀ v ∈ (r.fillContext net ctx).vertPreds, v ∈ net.graph.verts := by
    rw [hfill]
    exact h.preds
  simp only [PIDRouting.getRoutesWeights, Option.bind_eq_bind] at hget
  obtain ⟨preds, hcompute, hget⟩ := Option.bind_eq_some_iff.1 hget
  obtain ⟨result, hresult, hget⟩ := Option.bind_eq_some_iff.1 hget
  obtain rfl := Option.some.inj hget
  rw [hidxs, hweights] at hcompute
  obtain ⟨hsrc, pred, hpred, hstored⟩ := computeShortestPaths_preds hpreds hcompute
  refine ⟨⟨.inr ⟨by rw [hidxs]; exact vertIndexes_nonempty hsrc, hidxs, hweights⟩, ?_⟩, pred,
    hpred, weightsLoop_result (fun v u hu => (hstored v u hu).2) hresult⟩
  intro v hv
  obtain ⟨u, hu⟩ := StdMap.mem_iff_get.1 hv
  exact (hstored v u hu).1

/-- Static routes leave the rest of a context. -/
theorem Fits.getRoutesStatic (h : r.Fits net ctx) {src : PinnedPID} :
    r.Fits net (r.getRoutesStatic libs src pids ctx).2 := by
  have hloop : ∀ l ctx, r.Fits net ctx → r.Fits net (r.staticLoop src.pid pids l ctx).2 := by
    intro l
    induction l with
    | nil => exact fun ctx h => h
    | cons d l ih =>
      intro ctx h
      rw [staticLoop]
      split
      · exact ih ctx h
      · split
        · exact h
        · exact ih _ ⟨h.ready, h.preds⟩
  exact hloop _ _ ⟨h.ready, h.preds⟩

/-- A context that was used for some sources on this state. -/
inductive Used (libs : ViewLibs) (r : PIDRouting) (net : NetState) : RouteContext → Prop
  | fresh : Used libs r net {}
  | again {ctx ctx' : RouteContext} {src : PinnedPID} {pids : PinnedPIDSet} (h : Used libs r net ctx)
      (hget : r.getRoutesWeights libs src net pids ctx = some ctx') : Used libs r net ctx'

theorem Used.fits (h : Used libs r net ctx) : r.Fits net ctx := by
  induction h with
  | fresh => exact fits_fresh
  | again _ hget ih => exact (ih.getRoutesWeights hget).1

/-! ## Shortest routes -/

/-- The weight of a path. -/
def pathCost (r : PIDRouting) (net : NetState) (path : List NetVertex) : ℚ :=
  pathWeight (r.edgeCost net) path

/-- A route along edges from one PID to another one that is not heavier than any path. -/
structure ShortestRoute (r : PIDRouting) (net : NetState) (src dst : PinnedPID)
    (route : PinnedRoute) : Prop where
  starts : route.head?.map (·.pid) = some src.pid
  ends : route.getLast?.map (·.pid) = some dst.pid
  pinned : ∀ p ∈ route, net.getPid p.getVertex = some p.pid
  links : (route.map (·.getVertex)).IsChain net.graph.Edge
  shortest : ∀ path : List NetVertex, path.head? = some src.getVertex →
    path.getLast? = some dst.getVertex → path.IsChain net.graph.Edge →
    r.pathCost net (route.map (·.getVertex)) ≤ r.pathCost net path

theorem mem_verts_of_getPid {v : NetVertex} {pid : PID} (h : net.getPid v = some pid) :
    v ∈ net.graph.verts := by
  obtain ⟨props, hprops, -⟩ := Option.map_eq_some_iff.1 h
  exact StdMap.mem_iff_get.2 ⟨props, hprops⟩

theorem getPid_pinned {v : NetVertex} (h : v ∈ net.graph.verts) :
    net.getPid (pinned net v).getVertex = some (pinned net v).pid := by
  obtain ⟨props, hprops⟩ := StdMap.mem_iff_get.1 h
  simp [pinned, NetState.getPid, hprops]

theorem routeAlong_shortest {pred : NetVertex → NetVertex} {src d : PinnedPID}
    (htree : ShortestPathTree net.graph.Edge (r.edgeCost net) src.getVertex pred)
    (hmem : ∀ v ∈ net.graph.verts, pred v ∈ net.graph.verts)
    (hsrc : net.getPid src.getVertex = some src.pid) (hd : net.getPid d.getVertex = some d.pid)
    (hne : d.getVertex ≠ src.getVertex)
    (hreach : ReflTransGen net.graph.Edge src.getVertex d.getVertex) :
    ∃ route, routeAlong net pred src.getVertex d = some route ∧ ShortestRoute r net src d route := by
  have hdv := mem_verts_of_getPid hd
  have hself : pred d.getVertex ≠ d.getVertex := fun heq => by
    rcases htree.pred_eq_self_iff.1 heq with h | h
    · exact hne h
    · exact h hreach
  obtain ⟨back, hback⟩ := exists_backTo (htree.back _ (htree.reach_pred hreach)) hmem (hmem _ hdv)
  -- the same way back, with the step from the destination
  have hway : backTo pred src.getVertex (net.graph.verts.size + 1) d.getVertex =
      some (pred d.getVertex :: back) := by
    rw [backTo, if_neg hne, hback]
    rfl
  obtain ⟨hhead, hlast, hchain⟩ := htree.toPredTree.path hreach hway
  have hroute := routeAlong_eq hmem hdv hself hback
  generalize hr : (pred d.getVertex :: back).reverse.map (pinned net) ++
    [PinnedPID.ofVertex d.pid d.getVertex] = route at hroute
  have hverts : route.map (·.getVertex) = (d.getVertex :: pred d.getVertex :: back).reverse := by
    rw [← hr]
    simp [Function.comp_def, pinned]
  have hpinned : ∀ p ∈ route, net.getPid p.getVertex = some p.pid := by
    intro p hp
    rw [← hr, List.mem_append, List.mem_map, List.mem_singleton] at hp
    rcases hp with ⟨v, hv, rfl⟩ | rfl
    · refine getPid_pinned ?_
      rcases List.mem_cons.1 (List.mem_reverse.1 hv) with rfl | hv
      · exact hmem _ hdv
      · exact mem_of_backTo (P := (· ∈ net.graph.verts)) hmem (hmem _ hdv) hback v hv
    · simpa using hd
  refine ⟨route, hroute, ⟨?_, ?_, hpinned, hverts ▸ hchain, fun path h₁ h₂ h₃ => ?_⟩⟩
  · rw [← hverts, List.head?_map] at hhead
    obtain ⟨p, hp, hpv⟩ := Option.map_eq_some_iff.1 hhead
    have hpid := hpinned p (List.mem_of_mem_head? hp)
    rw [hpv, hsrc] at hpid
    rw [hp, Option.map_some, Option.some.inj hpid]
  · simp [← hr]
  · rw [hverts]
    exact htree.pathWeight_le hreach hway h₁ h₂ h₃

/-- For every PID that is not the source and can be reached there is a shortest route, and there is no
route to any other PID. A context that was used before stores the same routes as a fresh one. -/
theorem getRoutesWeights_shortest {src : PinnedPID}
    (hdijkstra : libs.DijkstraSpec net.graph (r.fillContext net {}).edgeWeights)
    (hdistinct : ∀ u v pid, net.getPid u = some pid → net.getPid v = some pid → u = v)
    (hsrc : net.getPid src.getVertex = some src.pid)
    (hpids : ∀ d ∈ pids, net.getPid d.getVertex = some d.pid) (hweights : r.NonNegative net)
    (hctx : Used libs r net ctx) :
    ∃ ctx' ctx₀, r.getRoutesWeights libs src net pids ctx = some ctx' ∧
      r.getRoutesWeights libs src net pids {} = some ctx₀ ∧ ctx'.result = ctx₀.result ∧
      (∀ d ∈ pids, d.pid ≠ src.pid →
        ReflTransGen net.graph.Edge src.getVertex d.getVertex →
        ∃ route, ctx'.result[d.pid]? = some route ∧ ShortestRoute r net src d route) ∧
      ∀ pid, (∀ d ∈ pids, d.pid = pid → d.pid ≠ src.pid →
        ¬ ReflTransGen net.graph.Edge src.getVertex d.getVertex) → ctx'.result[pid]? = none := by
  have hsrcv := mem_verts_of_getPid hsrc
  obtain ⟨pred, hpred, hmem, htree⟩ := hdijkstra src.getVertex hsrcv _ _
    (indexMap_fillContext (r := r)) (weightMap_fillContext hweights)
  have hback : ∀ v ∈ net.graph.verts, pred v ≠ v → ∃ n, pred^[n] (pred v) = src.getVertex := by
    intro v _ hself
    refine htree.back _ (htree.reach_pred ?_)
    by_contra hnot
    exact hself (htree.unreached v hnot)
  have hpidsv : ∀ d ∈ pids, d.getVertex ∈ net.graph.verts := fun d hd =>
    mem_verts_of_getPid (hpids d hd)
  obtain ⟨ctx', hget, hresult, -⟩ := getRoutesWeights_eq hctx.fits.ready hsrcv hpred hmem hback hpidsv
  obtain ⟨ctx₀, hget₀, hresult₀, -⟩ := getRoutesWeights_eq ready_fresh hsrcv hpred hmem hback hpidsv
  have hstored := @get_storeRoutes (routeAlong net pred src.getVertex) (libs.iter pids) ∅
  have hiter : ∀ d, d ∈ libs.iter pids ↔ d ∈ pids := fun d => (libs.perm pids).mem_iff
  refine ⟨ctx', ctx₀, hget, hget₀, hresult.trans hresult₀.symm, fun d hd hne hreach => ?_,
    fun pid hno => ?_⟩
  · have hvne : d.getVertex ≠ src.getVertex := by
      intro heq
      have hpid := hpids d hd
      rw [heq, hsrc] at hpid
      exact hne (Option.some.inj hpid).symm
    obtain ⟨route, hroute, hshort⟩ :=
      routeAlong_shortest htree hmem hsrc (hpids d hd) hvne hreach
    rw [hresult]
    rcases hstored d.pid with ⟨d', hd', hpid, route', hroute', hres⟩ | ⟨hnone, -⟩
    · -- a PID has one vertex, so this is the route
      have hv : d'.getVertex = d.getVertex :=
        hdistinct _ _ d.pid (hpid ▸ hpids d' ((hiter d').1 hd')) (hpids d hd)
      have hsame : routeAlong net pred src.getVertex d' = routeAlong net pred src.getVertex d := by
        unfold routeAlong
        rw [hv, hpid]
      obtain rfl := Option.some.inj (hroute'.symm.trans (hsame.trans hroute))
      exact ⟨route', hres, hshort⟩
    · rw [hnone d ((hiter d).2 hd) rfl] at hroute
      cases hroute
  · rw [hresult]
    rcases hstored pid with ⟨d, hd, hpid, route, hroute, -⟩ | ⟨-, hres⟩
    · have hdp := (hiter d).1 hd
      have hself : pred d.getVertex = d.getVertex := by
        rw [htree.pred_eq_self_iff]
        by_cases heq : d.pid = src.pid
        · exact .inl (hdistinct _ _ d.pid (hpids d hdp) (heq ▸ hsrc))
        · exact .inr (hno d hdp hpid heq)
      rw [routeAlong, if_pos hself] at hroute
      cases hroute
    · rw [hres]
      exact Std.ExtTreeMap.getElem?_empty

/-! ## Two vertices and an edge -/

/-- The PIDs of the two vertices. -/
def linePid (n : Nat) : PID := ⟨"isp", n, false⟩

/-- Two vertices with an edge from the first to the second. -/
def lineNet : NetState where
  graph :=
    { verts := ((∅ : StdMap NetVertex VertexProps).insert 0 ⟨false, "a", linePid 0⟩).insert 1
        ⟨false, "b", linePid 1⟩
      edges := (∅ : StdMap (NetVertex ×ₗ NetVertex) (Nat × EdgeProps)).insert (toLex (0, 1))
        (2, ⟨"", 0, 1⟩)
      next := 3 }
  nameVertMap := ∅
  nameEdgeMap := ∅

/-- A search on this graph. -/
def lineLibs : ViewLibs where
  iter pids := pids
  perm pids := .refl pids
  rnd := .fin
  dijkstra _ src _ _ := some fun v => if src = 0 ∧ v = 1 then 0 else v

theorem lineNet_edge {u v : NetVertex} : lineNet.graph.Edge u v ↔ u = 0 ∧ v = 1 := by
  rw [NetGraph.Edge, lineNet, Std.ExtTreeMap.mem_insert, compare_eq_iff_eq,
    or_iff_left Std.ExtTreeMap.not_mem_empty, eq_comm]
  exact toLex_inj.trans Prod.mk_inj

theorem lineNet_mem {v : NetVertex} : v ∈ lineNet.graph.verts ↔ v = 0 ∨ v = 1 := by
  rw [lineNet, Std.ExtTreeMap.mem_insert, Std.ExtTreeMap.mem_insert, compare_eq_iff_eq,
    compare_eq_iff_eq, or_iff_left Std.ExtTreeMap.not_mem_empty, or_comm, eq_comm, eq_comm (a := 1)]

theorem lineNet_reach {u v : NetVertex} :
    ReflTransGen lineNet.graph.Edge u v ↔ v = u ∨ (u = 0 ∧ v = 1) := by
  constructor
  · intro h
    induction h with
    | refl => exact .inl rfl
    | tail _ hedge ih =>
      obtain ⟨rfl, rfl⟩ := lineNet_edge.1 hedge
      rcases ih with rfl | ⟨-, h⟩
      · exact .inr ⟨rfl, rfl⟩
      · cases h
  · rintro (rfl | ⟨rfl, rfl⟩)
    · exact .refl
    · exact .single (lineNet_edge.2 ⟨rfl, rfl⟩)

theorem lineLibs_spec (weights : StdMap (NetVertex ×ₗ NetVertex) Double) :
    lineLibs.DijkstraSpec lineNet.graph weights := by
  intro src hsrc idxs w _ _
  refine ⟨_, rfl, fun v hv => ?_, ⟨⟨?_, fun v hv => ?_, fun v hv hne => ?_, fun v hv => ?_⟩,
    fun v => if src = 0 ∧ v = 1 then w 0 1 else 0, ?_, fun v hv hne => ?_, fun u v hu huv => ?_⟩⟩
  · split
    · exact lineNet_mem.2 (.inl rfl)
    · exact hv
  · split
    · next h => exact h.1.symm
    · rfl
  · rw [lineNet_reach, not_or] at hv
    exact if_neg hv.2
  · rcases lineNet_reach.1 hv with rfl | h
    · exact absurd rfl hne
    · rw [if_pos h]
      exact lineNet_edge.2 ⟨rfl, h.2⟩
  · rcases lineNet_reach.1 hv with rfl | h
    · exact ⟨0, rfl⟩
    · exact ⟨1, (if_pos h).trans h.1.symm⟩
  · exact if_neg fun h : src = 0 ∧ src = 1 => Nat.zero_ne_one (h.1.symm.trans h.2)
  · rcases lineNet_reach.1 hv with rfl | ⟨rfl, rfl⟩
    · exact absurd rfl hne
    · simp
  · obtain ⟨rfl, rfl⟩ := lineNet_edge.1 huv
    rcases lineNet_reach.1 hu with rfl | ⟨-, h⟩
    · simp
    · cases h

/-- The route from the first PID to the second, in a fresh context. -/
theorem getRoutesWeights_shortest_line :
    ∃ ctx', (PIDRouting.new 1).getRoutesWeights lineLibs (.ofVertex (linePid 0) 0) lineNet
        [.ofVertex (linePid 0) 0, .ofVertex (linePid 1) 1] {} = some ctx' ∧
      ∃ route, ctx'.result[linePid 1]? = some route := by
  have hpid : ∀ v, v = 0 ∨ v = 1 → lineNet.getPid v = some (linePid v) := by
    rintro v (rfl | rfl)
    · decide
    · decide
  have hpids : ∀ d ∈ [PinnedPID.ofVertex (linePid 0) 0, PinnedPID.ofVertex (linePid 1) 1],
      lineNet.getPid d.getVertex = some d.pid := by
    intro d hd
    rcases List.mem_cons.1 hd with rfl | hd
    · simpa using hpid 0 (.inl rfl)
    · obtain rfl := List.mem_singleton.1 hd
      simpa using hpid 1 (.inr rfl)
  have hweights : (PIDRouting.new 1).NonNegative lineNet := by
    intro u v huv
    obtain ⟨rfl, rfl⟩ := lineNet_edge.1 huv
    exact ⟨1, by decide, by decide⟩
  have hdistinct : ∀ u v pid, lineNet.getPid u = some pid → lineNet.getPid v = some pid → u = v := by
    intro u v pid hu hv
    have hu' := lineNet_mem.1 (mem_verts_of_getPid hu)
    have hv' := lineNet_mem.1 (mem_verts_of_getPid hv)
    rw [hpid u hu'] at hu
    rw [hpid v hv'] at hv
    exact congrArg PID.num (Option.some.inj (hu.trans hv.symm))
  obtain ⟨ctx', -, hget, -, -, hroutes, -⟩ := @getRoutesWeights_shortest lineLibs (.new 1)
    lineNet [.ofVertex (linePid 0) 0, .ofVertex (linePid 1) 1] {} (.ofVertex (linePid 0) 0)
    (lineLibs_spec _) hdistinct (by simpa using hpid 0 (.inl rfl)) hpids hweights .fresh
  obtain ⟨route, hroute, -⟩ := hroutes (.ofVertex (linePid 1) 1)
    (List.mem_cons_of_mem _ List.mem_cons_self) (by decide)
    (by simpa using lineNet_reach.2 (.inr ⟨rfl, rfl⟩))
  exact ⟨ctx', hget, route, hroute⟩

end PIDRouting

end Alto
