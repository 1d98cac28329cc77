import Alto.Verify.ViewUpdate

/-!
# Verifying static routes

`verify_static_routing` looks up the link from each hop back to the one before it. So it accepts the
routes whose links are there in the other direction.
-/

namespace Alto.ViewUpdate

open Lib NetState PIDRouting

variable {net : NetState} {pids : PinnedPIDSet} {routes : List StaticRoute} {a : PID}
  {p : PinnedPID} {route : List PID}

/-- The network has a link from one PID to another. -/
def HopLink (net : NetState) (pids : PinnedPIDSet) (a b : PID) : Prop :=
  ∃ p q, pids.find a = some p ∧ pids.find b = some q ∧ net.graph.Edge p.getVertex q.getVertex

/-- All hops are pinned. -/
def RoutesPinned (pids : PinnedPIDSet) (routes : List StaticRoute) : Prop :=
  ∀ s ∈ routes, ∀ hop ∈ s.route, ∃ p, pids.find hop = some p

/-- The network has the links of the routes. -/
def RoutesLinked (net : NetState) (pids : PinnedPIDSet) (routes : List StaticRoute) : Prop :=
  ∀ s ∈ routes, s.route.IsChain (HopLink net pids)

/-- The network has the links of the routes in the other direction. -/
def RoutesBackLinked (net : NetState) (pids : PinnedPIDSet) (routes : List StaticRoute) : Prop :=
  ∀ s ∈ routes, s.route.IsChain fun a b => HopLink net pids b a

/-- A path of the network. -/
def IsPath (net : NetState) (hops : PinnedRoute) : Prop :=
  hops.IsChain fun p q => net.graph.Edge p.getVertex q.getVertex

theorem getEdgeBetween_eq_none_iff {u v : NetVertex} :
    net.getEdgeBetween u v = none ↔ ¬ net.graph.Edge u v := by
  rw [getEdgeBetween, Option.map_eq_none_iff, NetGraph.Edge, StdMap.mem_iff_get,
    Option.eq_none_iff_forall_ne_some, not_exists]

/-! ## What the verification accepts -/

/-- The rest of a route, behind the hop `a`. -/
theorem verifyRoute_behind (h : Alive net pids) (hp : pids.find a = some p) :
    verifyRoute net pids (some p.getVertex) route = .ok true ↔
      (∀ hop ∈ route, ∃ q, pids.find hop = some q) ∧
        (a :: route).IsChain fun a b => HopLink net pids b a := by
  induction route generalizing a p with
  | nil => exact iff_of_true rfl ⟨fun _ hhop => absurd hhop List.not_mem_nil, .singleton a⟩
  | cons b route ih =>
    rw [List.isChain_cons_cons, List.forall_mem_cons, verifyRoute]
    cases hq : pids.find b with
    | none => exact iff_of_false (by simp) fun hall => by simpa using hall.1.1
    | some q =>
      obtain ⟨hsize, hverts⟩ := h.of_find hq
      have hlink : HopLink net pids b a ↔ net.graph.Edge q.getVertex p.getVertex := by
        constructor
        · rintro ⟨q', p', hq', hp', hedge⟩
          obtain rfl := Option.some.inj (hq.symm.trans hq')
          obtain rfl := Option.some.inj (hp.symm.trans hp')
          exact hedge
        · exact fun hedge => ⟨q, p, hq, hp, hedge⟩
      simp only [hsize, ne_eq, not_true_eq_false, if_false, hverts]
      cases hedge : net.getEdgeBetween q.getVertex p.getVertex with
      | none =>
        rw [getEdgeBetween_eq_none_iff, ← hlink] at hedge
        exact iff_of_false (by simp) fun hall => hedge hall.2.1
      | some e =>
        have hthere : HopLink net pids b a := by
          rw [hlink, ← not_not (a := net.graph.Edge _ _), ← getEdgeBetween_eq_none_iff, hedge]
          simp
        simp only [ih hq, hthere, true_and, Option.some.injEq, exists_eq']

theorem verifyRoute_iff (h : Alive net pids) :
    verifyRoute net pids none route = .ok true ↔
      (∀ hop ∈ route, ∃ q, pids.find hop = some q) ∧
        route.IsChain fun a b => HopLink net pids b a := by
  cases route with
  | nil => exact iff_of_true rfl ⟨fun _ hhop => absurd hhop List.not_mem_nil, .nil⟩
  | cons a route =>
    rw [List.forall_mem_cons, verifyRoute]
    cases hp : pids.find a with
    | none => exact iff_of_false (by simp) fun hall => by simpa using hall.1.1
    | some p =>
      obtain ⟨hsize, -⟩ := h.of_find hp
      simp only [hsize, ne_eq, not_true_eq_false, if_false, verifyRoute_behind h hp,
        Option.some.injEq, exists_eq', true_and]

/-- The verification accepts the routes with pinned hops and links in the other direction. -/
theorem verifyStaticRouting_iff (h : Alive net pids) :
    verifyStaticRouting net pids routes = .ok true ↔
      RoutesPinned pids routes ∧ RoutesBackLinked net pids routes := by
  induction routes with
  | nil =>
    exact iff_of_true rfl
      ⟨fun _ hs => absurd hs List.not_mem_nil, fun _ hs => absurd hs List.not_mem_nil⟩
  | cons s routes ih =>
    rw [RoutesPinned, RoutesBackLinked, List.forall_mem_cons, List.forall_mem_cons,
      and_and_and_comm, ← verifyRoute_iff h]
    obtain ⟨b, hb⟩ := verifyRoute_returns h s.route none
    simp only [verifyStaticRouting, hb, bind, Except.bind]
    cases b with
    | false => exact iff_of_false (by simp) fun hall => by simpa using hall.1
    | true =>
      simp only [if_true, true_and]
      exact ih

/-! ## The routes that are used -/

/-- Every route in the result is a pinned static route. -/
theorem getRoutesStatic_pinned {libs : ViewLibs} {r : PIDRouting} {src : PinnedPID}
    {ctx : RouteContext} {dst : PID} {hops : PinnedRoute}
    (h : (r.getRoutesStatic libs src pids ctx).2.result[dst]? = some hops) :
    ∃ s ∈ r.staticRoutes, pinRoute pids s.route = some hops := by
  have hloop : ∀ (l : List PinnedPID) (ctx : RouteContext),
      (∀ (d : PID) (hops : PinnedRoute), ctx.result[d]? = some hops →
        ∃ s ∈ r.staticRoutes, pinRoute pids s.route = some hops) →
      ∀ (d : PID) (hops : PinnedRoute), (staticLoop r src.pid pids l ctx).2.result[d]? = some hops →
        ∃ s ∈ r.staticRoutes, pinRoute pids s.route = some hops := by
    intro l
    induction l with
    | nil => exact fun _ hctx => hctx
    | cons e l ih =>
      intro ctx hctx
      rw [staticLoop]
      split
      · exact ih ctx hctx
      · next route hroute =>
        obtain ⟨-, s, hs, rfl⟩ := getStaticRoute_mem hroute
        split
        · exact hctx
        · next hops' hpin =>
          refine ih _ fun d hops hd => ?_
          rw [StdMap.get_insert] at hd
          split at hd
          · exact ⟨s, hs, hpin.trans hd⟩
          · exact hctx d hops hd
  refine hloop _ _ (fun d hops hd => ?_) dst hops h
  simp at hd

theorem pinRoute_some {hops : PinnedRoute} (h : pinRoute pids route = some hops) :
    hops.map (·.pid) = route ∧ ∀ p ∈ hops, pids.find p.pid = some p := by
  induction route generalizing hops with
  | nil =>
    obtain rfl := Option.some.inj h
    exact ⟨rfl, fun _ hp => absurd hp List.not_mem_nil⟩
  | cons a route ih =>
    rw [pinRoute, List.mapM_cons] at h
    obtain ⟨p, hp, h⟩ := Option.bind_eq_some_iff.1 h
    obtain ⟨rest, hrest, h⟩ := Option.bind_eq_some_iff.1 h
    obtain rfl := Option.some.inj h
    obtain ⟨-, hpid⟩ := PinnedPIDSet.pid_of_find hp
    obtain ⟨hpids, hfind⟩ := ih hrest
    refine ⟨by rw [List.map_cons, hpid, hpids], List.forall_mem_cons.2 ⟨?_, hfind⟩⟩
    rw [hpid, hp]

/-- The pinned hops of a route with links are a path. -/
theorem isPath_of_linked {hops : PinnedRoute} (hpin : pinRoute pids route = some hops)
    (h : route.IsChain (HopLink net pids)) : IsPath net hops := by
  obtain ⟨rfl, hfind⟩ := pinRoute_some hpin
  rw [List.isChain_map] at h
  refine h.imp_of_mem_imp fun p q hp hq hlink => ?_
  obtain ⟨p', q', hp', hq', hedge⟩ := hlink
  obtain rfl := Option.some.inj ((hfind p hp).symm.trans hp')
  obtain rfl := Option.some.inj ((hfind q hq).symm.trans hq')
  exact hedge

/-- The verification is exact, and the routes that it accepts give paths of the network only, exactly if
the links of the routes and the links in the other direction are either all there or in both cases not
all there, unless a hop is not pinned. -/
theorem verifyStaticRouting_exact_iff (h : Alive net pids) (libs : ViewLibs) (r : PIDRouting) :
    ((verifyStaticRouting net pids r.staticRoutes = .ok true ↔
        RoutesPinned pids r.staticRoutes ∧ RoutesLinked net pids r.staticRoutes) ∧
      (verifyStaticRouting net pids r.staticRoutes = .ok true →
        ∀ (src : PinnedPID) (ctx : RouteContext) (dst : PID) (hops : PinnedRoute),
          (r.getRoutesStatic libs src pids ctx).2.result[dst]? = some hops → IsPath net hops)) ↔
      (RoutesPinned pids r.staticRoutes →
        (RoutesLinked net pids r.staticRoutes ↔ RoutesBackLinked net pids r.staticRoutes)) := by
  rw [verifyStaticRouting_iff h]
  constructor
  · rintro ⟨hexact, -⟩ hpinned
    exact (and_congr_right_iff.1 hexact hpinned).symm
  · intro hsame
    refine ⟨and_congr_right fun hpinned => (hsame hpinned).symm, ?_⟩
    rintro ⟨hpinned, hback⟩ src ctx dst hops hget
    obtain ⟨s, hs, hpin⟩ := getRoutesStatic_pinned hget
    exact isPath_of_linked hpin ((hsame hpinned).2 hback s hs)

/-- The two PIDs of `lineNet`. -/
def linePids : PinnedPIDSet := [.ofVertex (linePid 0) 0, .ofVertex (linePid 1) 1]

/-- A static route. -/
def routeOf (route : List PID) : PIDRouting :=
  { PIDRouting.new 1 with routeMode := .static, staticRoutes := [⟨0, route⟩] }

/-- `lineNet` with a second edge, from the second vertex back to the first. -/
def roundNet : NetState :=
  { lineNet with graph := { lineNet.graph with
      edges := lineNet.graph.edges.insert (toLex (1, 0)) (3, ⟨"", 0, 1⟩)
      next := 4 } }

theorem roundNet_edge {u v : NetVertex} :
    roundNet.graph.Edge u v ↔ (u = 1 ∧ v = 0) ∨ (u = 0 ∧ v = 1) := by
  rw [NetGraph.Edge, roundNet, Std.ExtTreeMap.mem_insert, compare_eq_iff_eq, eq_comm]
  exact or_congr (toLex_inj.trans Prod.mk_inj) lineNet_edge

theorem linePids_alive : Alive roundNet linePids := by
  refine ⟨fun p hp => ?_, fun p hp => ?_⟩
  · rcases List.mem_pair.1 hp with rfl | rfl <;> rfl
  · rcases List.mem_pair.1 hp with rfl | rfl <;> decide

/-- A route to the second PID and back to the first is accepted, and what it gives is a path. -/
theorem verifyStaticRouting_exact_round :
    verifyStaticRouting roundNet linePids
        (routeOf [linePid 0, linePid 1, linePid 0]).staticRoutes = .ok true ∧
      ∃ hops : PinnedRoute, ((routeOf [linePid 0, linePid 1, linePid 0]).getRoutesStatic lineLibs
          (.ofVertex (linePid 0) 0) linePids {}).2.result[linePid 0]? = some hops ∧
        hops.length = 3 ∧ IsPath roundNet hops := by
  have hone : ∀ s ∈ (routeOf [linePid 0, linePid 1, linePid 0]).staticRoutes,
      s.route = [linePid 0, linePid 1, linePid 0] := fun s hs => by rw [List.mem_singleton.1 hs]
  have hto : ∀ u v, (u = 0 ∧ v = 1) ∨ (u = 1 ∧ v = 0) →
      HopLink roundNet linePids (linePid u) (linePid v) := by
    rintro u v (⟨rfl, rfl⟩ | ⟨rfl, rfl⟩)
    · exact ⟨_, _, rfl, rfl, roundNet_edge.2 (.inr ⟨by decide, by decide⟩)⟩
    · exact ⟨_, _, rfl, rfl, roundNet_edge.2 (.inl ⟨by decide, by decide⟩)⟩
  have hlinked : RoutesLinked roundNet linePids
      (routeOf [linePid 0, linePid 1, linePid 0]).staticRoutes := by
    intro s hs
    rw [hone s hs]
    exact .cons_cons (hto 0 1 (by decide)) (.cons_cons (hto 1 0 (by decide)) (.singleton _))
  have hback : RoutesBackLinked roundNet linePids
      (routeOf [linePid 0, linePid 1, linePid 0]).staticRoutes := by
    intro s hs
    rw [hone s hs]
    exact .cons_cons (hto 1 0 (by decide)) (.cons_cons (hto 0 1 (by decide)) (.singleton _))
  obtain ⟨-, hpaths⟩ := (verifyStaticRouting_exact_iff linePids_alive lineLibs
    (routeOf [linePid 0, linePid 1, linePid 0])).2 fun _ => iff_of_true hlinked hback
  have haccept : verifyStaticRouting roundNet linePids
      (routeOf [linePid 0, linePid 1, linePid 0]).staticRoutes = .ok true := by decide
  exact ⟨haccept, _, rfl, rfl,
    hpaths haccept (.ofVertex (linePid 0) 0) {} (linePid 0) _ rfl⟩

/-- The only link goes from the first PID to the second: the route from the second to the first is
accepted and used, and the route along the link is rejected. -/
theorem verifyStaticRouting_backwards :
    verifyStaticRouting lineNet linePids
        (routeOf [linePid 1, linePid 0]).staticRoutes = .ok true ∧
      ¬ RoutesLinked lineNet linePids (routeOf [linePid 1, linePid 0]).staticRoutes ∧
      (∃ hops : PinnedRoute, ((routeOf [linePid 1, linePid 0]).getRoutesStatic lineLibs
          (.ofVertex (linePid 1) 1) linePids {}).2.result[linePid 0]? = some hops ∧
        ¬ IsPath lineNet hops) ∧
      verifyStaticRouting lineNet linePids
        (routeOf [linePid 0, linePid 1]).staticRoutes = .ok false ∧
      RoutesPinned linePids (routeOf [linePid 0, linePid 1]).staticRoutes ∧
      RoutesLinked lineNet linePids (routeOf [linePid 0, linePid 1]).staticRoutes := by
  have hback : ¬ HopLink lineNet linePids (linePid 1) (linePid 0) := by
    rintro ⟨p, q, hp, hq, hedge⟩
    obtain rfl : PinnedPID.ofVertex (linePid 1) 1 = p := Option.some.inj hp
    obtain rfl : PinnedPID.ofVertex (linePid 0) 0 = q := Option.some.inj hq
    exact absurd (lineNet_edge.1 hedge).1 (by decide)
  refine ⟨by decide, fun h => ?_, ⟨_, rfl, fun h => ?_⟩, by decide, fun s hs hop hmem => ?_,
    fun s hs => ?_⟩
  · exact hback (List.isChain_cons_cons.1 (h _ List.mem_cons_self)).1
  · exact absurd (lineNet_edge.1 (List.isChain_cons_cons.1 h).1).1 (by decide)
  · obtain rfl := List.mem_singleton.1 hs
    rcases List.mem_pair.1 hmem with rfl | rfl
    · exact ⟨_, rfl⟩
    · exact ⟨_, rfl⟩
  · obtain rfl := List.mem_singleton.1 hs
    refine List.isChain_cons_cons.2 ⟨⟨_, _, rfl, rfl, lineNet_edge.2 ⟨?_, ?_⟩⟩, .singleton _⟩
    · decide
    · decide

end Alto.ViewUpdate
