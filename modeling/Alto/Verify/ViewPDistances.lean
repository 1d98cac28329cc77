import Alto.Lib.Loops
import Alto.Portal.ViewUpdate
import Alto.Verify.PIDMatrix
import Alto.Verify.PIDRoutes

/-!
# The pDistances of a view

The matrix entries that `compute_pdistances` leaves, in terms of the route that the routing selects
for each pair of PIDs.
-/

namespace Alto.ViewUpdate

open Lib PIDMatrix PIDRouting

variable {inp : Inputs} {external : StdSet PID} {m m' : Matrices} {S : StdSet PID} {src dst : PID}

/-! ## Selected routes -/

/-- The route along the predecessors that `dijkstra_shortest_paths` returns for a source. -/
def shortestRoute (inp : Inputs) (src dst : PID) : Option PinnedRoute := do
  let p ← inp.pids.find src
  let d ← inp.pids.find dst
  let pred ← inp.libs.dijkstra inp.net.graph p.getVertex
    (inp.routing.fillContext inp.net {}).vertIndexes (inp.routing.fillContext inp.net {}).edgeWeights
  routeAlong inp.net pred p.getVertex d

/-- The hops of the route from one PID to another: the first static route between them, or the route
by weights. -/
def selectedRoute (inp : Inputs) (src dst : PID) : Option (List PID) :=
  match inp.routing.routeMode with
  | .static => inp.routing.getStaticRoute src dst
  | .weights => (shortestRoute inp src dst).map (List.map (·.pid))

/-- The routes of a context are the selected routes from a source. -/
def HasRoutes (inp : Inputs) (ctx : RouteContext) (src : PID) : Prop :=
  ∀ dst, (ctx.result[dst]?).map (List.map (·.pid)) = selectedRoute inp src dst

/-! ## Static routes -/

/-- What `verify_static_routing` has checked: all the hops of the static routes are pinned. -/
def HopsPinned (inp : Inputs) : Prop :=
  ∀ s ∈ inp.routing.staticRoutes, ∀ hop ∈ s.route, ∃ p, inp.pids.find hop = some p

theorem verifyRoute_pinned {net : NetState} {pids : PinnedPIDSet} {route : List PID}
    {prev : Option NetVertex} (h : verifyRoute net pids prev route = .ok true) :
    ∀ hop ∈ route, ∃ p, pids.find hop = some p := by
  induction route generalizing prev with
  | nil => intro hop hmem; cases hmem
  | cons a route ih =>
    rw [verifyRoute] at h
    split at h
    · cases h
    · next p hp =>
      have hrest : ∃ v, verifyRoute net pids (some v) route = .ok true := by
        split at h
        · cases h
        · split at h
          · exact ⟨_, h⟩
          · split at h
            · cases h
            · split at h
              · cases h
              · exact ⟨_, h⟩
      obtain ⟨v, hrest⟩ := hrest
      intro hop hmem
      rcases List.mem_cons.1 hmem with rfl | hmem
      · exact ⟨p, hp⟩
      · exact ih hrest hop hmem

theorem hopsPinned_of_verify
    (h : verifyStaticRouting inp.net inp.pids inp.routing.staticRoutes = .ok true) :
    HopsPinned inp := by
  unfold HopsPinned
  generalize inp.routing.staticRoutes = routes at h ⊢
  induction routes with
  | nil => intro s hs; cases hs
  | cons route routes ih =>
    simp only [verifyStaticRouting] at h
    cases hroute : verifyRoute inp.net inp.pids none route.route with
    | error e =>
      rw [hroute] at h
      cases h
    | ok b =>
      rw [hroute] at h
      cases b with
      | false => cases h
      | true =>
        intro s hs
        rcases List.mem_cons.1 hs with rfl | hs
        · exact verifyRoute_pinned hroute
        · exact ih h s hs

theorem getStaticRoute_mem {r : PIDRouting} {route : List PID}
    (h : r.getStaticRoute src dst = some route) :
    dst ∈ route ∧ ∃ s ∈ r.staticRoutes, s.route = route := by
  obtain ⟨s, hs, rfl⟩ := Option.map_eq_some_iff.1 h
  have hends := List.find?_some hs
  simp only [decide_eq_true_eq] at hends
  exact ⟨List.mem_of_getLast? hends.2, s, List.mem_of_find?_eq_some hs, rfl⟩

theorem pinRoute_of_pinned {pids : PinnedPIDSet} {route : List PID}
    (h : ∀ hop ∈ route, ∃ p, pids.find hop = some p) :
    ∃ hops, pinRoute pids route = some hops ∧ hops.map (·.pid) = route := by
  induction route with
  | nil => exact ⟨[], rfl, rfl⟩
  | cons hop route ih =>
    obtain ⟨p, hp⟩ := h hop List.mem_cons_self
    obtain ⟨hops, hhops, hpids⟩ := ih fun a ha => h a (List.mem_cons_of_mem _ ha)
    refine ⟨p :: hops, ?_, by rw [List.map_cons, hpids, (PinnedPIDSet.pid_of_find hp).2]⟩
    rw [pinRoute] at hhops ⊢
    rw [List.mapM_cons, hp, hhops]
    rfl

/-- The pinned static route to a PID. -/
def staticRoute (r : PIDRouting) (src : PID) (pids : PinnedPIDSet) (d : PinnedPID) :
    Option PinnedRoute :=
  (r.getStaticRoute src d.pid).bind (pinRoute pids)

theorem staticLoop_eq {r : PIDRouting} {pids : PinnedPIDSet} {l : List PinnedPID}
    (h : ∀ d route, r.getStaticRoute src d = some route → ∃ hops, pinRoute pids route = some hops)
    (ctx : RouteContext) :
    staticLoop r src pids l ctx =
      (true, { ctx with result := storeRoutes (staticRoute r src pids) l ctx.result }) := by
  induction l generalizing ctx with
  | nil => rfl
  | cons d l ih =>
    rw [staticLoop, storeRoutes]
    cases hroute : r.getStaticRoute src d.pid with
    | none =>
      have hnone : staticRoute r src pids d = none := by rw [staticRoute, hroute]; rfl
      simp only [ih]
      rw [List.filterMap_cons_none (by rw [hnone]; rfl)]
      rfl
    | some route =>
      obtain ⟨hops, hhops⟩ := h d.pid route hroute
      have hsome : staticRoute r src pids d = some hops := by rw [staticRoute, hroute]; exact hhops
      simp only [hhops, ih]
      rw [List.filterMap_cons_some (b := (d.pid, hops)) (by rw [hsome]; rfl)]
      rfl

/-! ## The routes from a source -/

theorem getRoutes_static (hpinned : HopsPinned inp) {ctx : RouteContext} (p : PinnedPID)
    (hmode : inp.routing.routeMode = .static) :
    HasRoutes inp (inp.routing.getRoutesStatic inp.libs p inp.pids ctx).2 p.pid := by
  have hroutes : ∀ d route, inp.routing.getStaticRoute p.pid d = some route →
      ∃ hops, pinRoute inp.pids route = some hops ∧ hops.map (·.pid) = route := by
    intro d route hroute
    obtain ⟨-, s, hs, rfl⟩ := getStaticRoute_mem hroute
    exact pinRoute_of_pinned (hpinned s hs)
  intro dst
  rw [getRoutesStatic, staticLoop_eq (fun d route h =>
    let ⟨hops, hhops, _⟩ := hroutes d route h; ⟨hops, hhops⟩), selectedRoute, hmode]
  rcases @get_storeRoutes (staticRoute inp.routing p.pid inp.pids) (inp.libs.iter inp.pids) ∅ dst with ⟨d, -, rfl, hops, hhops, hres⟩ | ⟨hno, hres⟩
  · obtain ⟨route, hroute, hpin⟩ := Option.bind_eq_some_iff.1 hhops
    obtain ⟨hops', hpin', hpids⟩ := hroutes _ _ hroute
    obtain rfl := Option.some.inj (hpin'.symm.trans hpin)
    change (_ : StdMap PID PinnedRoute)[d.pid]?.map _ = _
    rw [hres, hroute, Option.map_some, hpids]
  · change (_ : StdMap PID PinnedRoute)[dst]?.map _ = _
    rw [hres]
    cases hroute : inp.routing.getStaticRoute p.pid dst with
    | none => simp
    | some route =>
      -- the last hop of a route is pinned, so its destination is in the set
      obtain ⟨hlast, s, hs, rfl⟩ := getStaticRoute_mem hroute
      obtain ⟨d, hd⟩ := hpinned s hs dst hlast
      obtain ⟨hmem, rfl⟩ := PinnedPIDSet.pid_of_find hd
      obtain ⟨hops, hpin, -⟩ := hroutes _ _ hroute
      have hnone := hno d ((inp.libs.perm inp.pids).mem_iff.2 hmem) rfl
      rw [staticRoute, hroute, Option.bind_some, hpin] at hnone
      cases hnone

theorem getRoutes_weights (hunique : (inp.pids.map (·.pid)).Nodup)
    (hmode : inp.routing.routeMode = .weights) {p : PinnedPID} (hp : inp.pids.find src = some p)
    {pred : NetVertex → NetVertex} {ctx : RouteContext}
    (hpred : inp.libs.dijkstra inp.net.graph p.getVertex
      (inp.routing.fillContext inp.net {}).vertIndexes
      (inp.routing.fillContext inp.net {}).edgeWeights = some pred)
    (hresult : ctx.result =
      storeRoutes (routeAlong inp.net pred p.getVertex) (inp.libs.iter inp.pids) ∅) :
    HasRoutes inp ctx src := by
  intro dst
  rw [hresult, selectedRoute, hmode]
  have hfind : ∀ d, d ∈ inp.libs.iter inp.pids → inp.pids.find d.pid = some d := by
    intro d hd
    have hmem := (inp.libs.perm inp.pids).mem_iff.1 hd
    cases hf : inp.pids.find d.pid with
    | none =>
      have hno := List.find?_eq_none.1 hf d hmem
      simp at hno
    | some d' =>
      obtain ⟨hmem', hpid⟩ := PinnedPIDSet.pid_of_find hf
      rw [List.inj_on_of_nodup_map hunique hmem' hmem hpid]
  rcases @get_storeRoutes (routeAlong inp.net pred p.getVertex) (inp.libs.iter inp.pids) ∅ dst with ⟨d, hd, rfl, route, hroute, hres⟩ | ⟨hno, hres⟩
  · simp [hres, shortestRoute, hp, hfind d hd, hpred, hroute]
  · rw [hres]
    cases hf : inp.pids.find dst with
    | none => simp [shortestRoute, hf]
    | some d =>
      obtain ⟨hmem, rfl⟩ := PinnedPIDSet.pid_of_find hf
      have hnone := hno d ((inp.libs.perm inp.pids).mem_iff.2 hmem) rfl
      simp [shortestRoute, hf, hp, hpred, hnone]

/-- The context gets the selected routes from a source, and the matrices stay. -/
theorem routesFrom_ok (hpinned : HopsPinned inp) (hunique : (inp.pids.map (·.pid)).Nodup)
    (hfits : inp.routing.Fits inp.net m.ctx) (h : routesFrom inp m src = .ok m') :
    m'.intra = m.intra ∧ m'.inter = m.inter ∧ inp.routing.Fits inp.net m'.ctx ∧
      HasRoutes inp m'.ctx src := by
  cases hp : inp.pids.find src with
  | none =>
    simp only [routesFrom, hp, orFault, bind, Except.bind] at h
    cases h
  | some p =>
    obtain ⟨-, hpid⟩ := PinnedPIDSet.pid_of_find hp
    cases hroutes : inp.routing.getRoutes inp.libs p inp.net inp.pids m.ctx with
    | none =>
      simp only [routesFrom, hp, hroutes, orFault, bind, Except.bind] at h
      cases h
    | some res =>
      obtain ⟨ok, ctx⟩ := res
      simp only [routesFrom, hp, hroutes, orFault, bind, Except.bind, pure, Except.pure] at h
      obtain rfl : { m with ctx } = m' := Except.ok.inj h
      refine ⟨rfl, rfl, ?_⟩
      rw [getRoutes] at hroutes
      split at hroutes
      · next hmode =>
        have hctx := congrArg Prod.snd (Option.some.inj hroutes)
        obtain rfl : (inp.routing.getRoutesStatic inp.libs p inp.pids m.ctx).2 = ctx := hctx
        exact ⟨hfits.getRoutesStatic, hpid ▸ getRoutes_static hpinned p hmode⟩
      · next hmode =>
        obtain ⟨ctx', hget, heq⟩ := Option.map_eq_some_iff.1 hroutes
        obtain rfl := (Prod.mk.inj heq).2
        obtain ⟨hfits', pred, hpred, hresult⟩ := hfits.getRoutesWeights hget
        exact ⟨hfits', getRoutes_weights hunique hmode hp hpred hresult⟩

/-! ## The pDistances between internal PIDs -/

/-- The value that a matrix defines for a pair of PIDs. -/
def defined (m : PIDMatrix) (src dst : PID) : Option Double := (m.entry src dst).filter (· ≠ .nan)

/-- The pDistance of a link on a route: the static one, else the dynamic one, else the default. -/
def hopPDistance (inp : Inputs) (src dst : PID) : Double :=
  ((defined inp.static src dst).or (defined inp.dynamic src dst)).getD
    inp.view.defaultPidlinkPDistance

/-- The sum of the pDistances of the links between consecutive hops. -/
def routePDistance (inp : Inputs) (route : List PID) : Double :=
  ((route.zip route.tail).map fun l => hopPDistance inp l.1 l.2).foldl (Double.add inp.libs.rnd) 0

/-- The pDistance between two internal PIDs. -/
def intraSpec (inp : Inputs) (src dst : PID) : Double :=
  if src = dst then inp.view.defaultIntrapidPDistance
  else
    match selectedRoute inp src dst with
    | none => inp.view.defaultInterpidPDistance
    | some route => routePDistance inp route

theorem defined_eq (m : PIDMatrix) :
    defined m src dst =
      if m.getByPid src dst .nan ≠ .nan then some (m.getByPid src dst .nan) else none := by
  rw [getByPid_eq, defined]
  cases m.entry src dst with
  | none => simp
  | some v => simp [Option.filter]

theorem linkPDistance_eq (static dynamic : PIDMatrix) (dflt : Double) :
    linkPDistance static dynamic dflt src dst =
      ((defined static src dst).or (defined dynamic src dst)).getD dflt := by
  rw [linkPDistance, defined_eq, defined_eq]
  split
  · rfl
  · split <;> rfl

theorem tracePDistance_eq (rnd : ℚ → Double) (cost : PID → PID → Double) (p : Double)
    (route : List PID) :
    tracePDistance rnd cost p route =
      ((route.zip route.tail).map fun l => cost l.1 l.2).foldl (Double.add rnd) p := by
  induction route generalizing p with
  | nil => rfl
  | cons a route ih =>
    cases route with
    | nil => rfl
    | cons b route =>
      rw [tracePDistance, ih]
      rfl

theorem intraPDistance_eq {ctx : RouteContext} {i j : IndexedPID} (hi : i ∈ indexPids S)
    (hj : j ∈ indexPids S) (hroutes : HasRoutes inp ctx i.pid) :
    intraPDistance inp ctx i j = intraSpec inp i.pid j.pid := by
  simp only [intraPDistance, intraSpec, indexPids_inj hi hj, ← hroutes j.pid]
  split
  · rfl
  · cases ctx.result[j.pid]? with
    | none => rfl
    | some route =>
      simp only [Option.map_some, routePDistance, tracePDistance_eq, linkPDistance_eq]
      rfl

/-- One row of the intradomain matrix. -/
theorem fillRow {i : IndexedPID} (hi : i ∈ indexPids S) {l : List IndexedPID}
    (hl : ∀ j ∈ l, j ∈ indexPids S) (hm : m.intra.HasPids S) (hroutes : HasRoutes inp m.ctx i.pid) :
    ∃ intra, l.foldl (fun (m : Matrices) j =>
        { m with intra := m.intra.set i j (intraPDistance inp m.ctx i j) }) m = { m with intra } ∧
      intra.HasPids S ∧ ∀ a b, intra.entry a b =
        if a = i.pid ∧ b ∈ l.map (·.pid) then some (intraSpec inp i.pid b)
        else m.intra.entry a b := by
  induction l generalizing m with
  | nil => exact ⟨m.intra, rfl, hm, by simp⟩
  | cons j l ih =>
    have hj := hl j List.mem_cons_self
    have hvalue := intraPDistance_eq hi hj hroutes
    obtain ⟨intra, hfold, hpids, hentry⟩ := ih
      (m := { m with intra := m.intra.set i j (intraPDistance inp m.ctx i j) })
      (fun k hk => hl k (List.mem_cons_of_mem _ hk)) hm.set hroutes
    refine ⟨intra, hfold, hpids, fun a b => ?_⟩
    rw [hentry, hm.entry_set hi hj, hvalue, List.map_cons]
    by_cases ha : a = i.pid
    · subst ha
      by_cases hb : b ∈ l.map (·.pid)
      · rw [if_pos ⟨rfl, hb⟩, if_pos ⟨rfl, List.mem_cons_of_mem _ hb⟩]
      · by_cases hbj : j.pid = b
        · subst hbj
          rw [if_neg fun h => hb h.2, if_pos ⟨rfl, rfl⟩, if_pos ⟨rfl, List.mem_cons_self⟩]
        · rw [if_neg fun h => hb h.2, if_neg fun h => hbj h.2, if_neg]
          rintro ⟨-, h⟩
          rcases List.mem_cons.1 h with h | h
          · exact hbj h.symm
          · exact hb h
    · rw [if_neg fun h => ha h.1, if_neg fun h => ha h.1.symm, if_neg fun h => ha h.1]

theorem setInter_fields (pdistance : Matrices → PID → PID → Double) :
    (setInter pdistance m src dst).intra = m.intra ∧ (setInter pdistance m src dst).ctx = m.ctx := by
  unfold setInter
  split <;> exact ⟨rfl, rfl⟩

theorem foldl_setInter_fields {A : Type*} (pdistance : Matrices → PID → PID → Double) (f : A → PID)
    (l : List A) :
    (l.foldl (fun m a => setInter pdistance m src (f a)) m).intra = m.intra ∧
      (l.foldl (fun m a => setInter pdistance m src (f a)) m).ctx = m.ctx := by
  induction l generalizing m with
  | nil => exact ⟨rfl, rfl⟩
  | cons a l ih =>
    obtain ⟨hintra, hctx⟩ := @setInter_fields m src (f a) pdistance
    rw [List.foldl_cons, ih.1, ih.2]
    exact ⟨hintra, hctx⟩

/-- The matrices between two rounds: the rows of the intradomain matrix that are filled, and a context
that can be used again. -/
structure Filled (inp : Inputs) (S : StdSet PID) (done : List PID) (m : Matrices) : Prop where
  pids : m.intra.HasPids S
  fits : inp.routing.Fits inp.net m.ctx
  rows : ∀ a ∈ done, ∀ b ∈ S, m.intra.entry a b = some (intraSpec inp a b)

variable {done : List PID} {i : IndexedPID}

theorem Filled.congr (h : Filled inp S done m) (hintra : m'.intra = m.intra)
    (hctx : m'.ctx = m.ctx) : Filled inp S done m' :=
  ⟨hintra ▸ h.pids, hctx ▸ h.fits, by rw [hintra]; exact h.rows⟩

/-- A round of the first loop: the row of the source, then its interdomain pDistances. -/
theorem fromInternal_ok (hpinned : HopsPinned inp) (hunique : (inp.pids.map (·.pid)).Nodup)
    (h : Filled inp S done m) (hi : i ∈ indexPids S)
    (hrun : fromInternal inp external m i = .ok m') :
    ∃ m₁, Filled inp S (done ++ [i.pid]) m₁ ∧ m₁.inter = m.inter ∧ HasRoutes inp m₁.ctx i.pid ∧
      m' = external.toList.foldl (fun m dst => setInter (egressPDistance inp) m i.pid dst) m₁ := by
  rw [fromInternal] at hrun
  cases hroutes : routesFrom inp m i.pid with
  | error e =>
    rw [hroutes] at hrun
    cases hrun
  | ok m₀ =>
    rw [hroutes] at hrun
    obtain ⟨hintra, hinter, hfits, hctx⟩ := routesFrom_ok hpinned hunique h.fits hroutes
    have hpids : m₀.intra.HasPids S := hintra ▸ h.pids
    obtain ⟨intra, hfold, hpids', hentry⟩ :=
      fillRow hi (l := m₀.intra.pids) (fun j hj => hpids ▸ hj) hpids hctx
    have hrow : m₀.intra.pids.map (·.pid) = S.toList := by rw [hpids, map_pid_indexPids]
    refine ⟨{ m₀ with intra }, ⟨hpids', hfits, fun a ha b hb => ?_⟩, hinter, hctx, ?_⟩
    · change intra.entry a b = _
      rw [hentry, hrow]
      split
      · next hab => rw [hab.1]
      · next hab =>
        have hne : a ≠ i.pid := fun heq => hab ⟨heq, Std.ExtTreeSet.mem_toList.2 hb⟩
        rw [hintra]
        refine h.rows a ?_ b hb
        rcases List.mem_append.1 ha with ha | ha
        · exact ha
        · exact absurd (List.mem_singleton.1 ha) hne
    · rw [← hfold]
      exact (Except.ok.inj hrun).symm

/-- A round of the second loop: the interdomain pDistances from an external source. -/
theorem fromExternal_ok (hpinned : HopsPinned inp) (hunique : (inp.pids.map (·.pid)).Nodup)
    (h : Filled inp S done m) (hrun : fromExternal inp m i = .ok m') :
    (i.pid.external = false ∧ m' = m) ∨
      i.pid.external = true ∧ ∃ m₁, Filled inp S done m₁ ∧ m₁.inter = m.inter ∧
        HasRoutes inp m₁.ctx i.pid ∧
        m' = (indexPids S).foldl
          (fun m dst => setInter (ingressPDistance inp) m i.pid dst.pid) m₁ := by
  rw [fromExternal] at hrun
  split at hrun
  · next hext =>
    cases hroutes : routesFrom inp m i.pid with
    | error e =>
      rw [hroutes] at hrun
      cases hrun
    | ok m₀ =>
      rw [hroutes] at hrun
      obtain ⟨hintra, hinter, hfits, hctx⟩ := routesFrom_ok hpinned hunique h.fits hroutes
      have hpids : m₀.intra.HasPids S := hintra ▸ h.pids
      refine .inr ⟨hext, m₀, ⟨hpids, hfits, by rw [hintra]; exact h.rows⟩, hinter, hctx, ?_⟩
      rw [← hpids]
      exact (Except.ok.inj hrun).symm
  · next hext =>
    exact .inl ⟨by simpa using hext, (Except.ok.inj hrun).symm⟩

/-- The two loops of `compute_pdistances`. -/
theorem computePDistances_loops {intra inter : PIDMatrix}
    (hrun : computePDistances inp external intra inter = .ok m) :
    ∃ links m₁, findInterdomainLinks inp.net = .ok links ∧
      intra.pids.foldlM (fromInternal inp external) { intra, inter := setLinks inp links inter } =
        .ok m₁ ∧
      m₁.inter.pids.foldlM (fromExternal inp) m₁ = .ok m := by
  simp only [computePDistances, bind, Except.bind] at hrun
  split at hrun
  · cases hrun
  · next links hlinks =>
    split at hrun
    · cases hrun
    · next m₁ hfirst => exact ⟨links, m₁, hlinks, hfirst, hrun⟩

/-- What both loops keep, whatever the interdomain matrix is. -/
theorem computePDistances_filled (hpinned : HopsPinned inp)
    (hunique : (inp.pids.map (·.pid)).Nodup) {intra inter : PIDMatrix} (hintra : intra.HasPids S)
    (hrun : computePDistances inp external intra inter = .ok m) : Filled inp S S.toList m := by
  obtain ⟨links, m₁, -, hfirst, hsecond⟩ := computePDistances_loops hrun
  have hstart : Filled inp S [] { intra, inter := setLinks inp links inter } :=
    ⟨hintra, fits_fresh, fun a ha => by cases ha⟩
  have hrows : Filled inp S ((indexPids S).map (·.pid)) m₁ := by
    rw [← hintra]
    refine (foldlM_ok
      (P := fun done rest m => done ++ rest = intra.pids ∧ Filled inp S (done.map (·.pid)) m)
      (fun done i rest m m' hm hround => ⟨by simpa using hm.1, ?_⟩) ⟨rfl, hstart⟩ hfirst).2
    have hi : i ∈ indexPids S := by
      rw [← hintra, ← hm.1]
      exact List.mem_append_right _ List.mem_cons_self
    obtain ⟨m₁, hfilled, -, -, rfl⟩ := fromInternal_ok hpinned hunique hm.2 hi hround
    obtain ⟨hintra, hctx⟩ := @foldl_setInter_fields m₁ i.pid _ (egressPDistance inp) id
      external.toList
    rw [List.map_append]
    exact hfilled.congr hintra hctx
  rw [map_pid_indexPids] at hrows
  refine foldlM_keeps (fun i m m' hm hround => ?_) hrows hsecond
  rcases fromExternal_ok hpinned hunique hm hround with ⟨-, rfl⟩ | ⟨-, m₁, hfilled, -, -, rfl⟩
  · exact hm
  · obtain ⟨hintra, hctx⟩ := @foldl_setInter_fields m₁ i.pid _ (ingressPDistance inp)
      (·.pid) (indexPids S)
    exact hfilled.congr hintra hctx

/-- There is no route by weights exactly if the destination cannot be reached. -/
theorem selectedRoute_eq_none_iff (hmode : inp.routing.routeMode = .weights)
    (hdijkstra : inp.libs.DijkstraSpec inp.net.graph
      (inp.routing.fillContext inp.net {}).edgeWeights)
    (hweights : inp.routing.NonNegative inp.net)
    {p d : PinnedPID} (hp : inp.pids.find src = some p) (hd : inp.pids.find dst = some d)
    (hpv : p.getVertex ∈ inp.net.graph.verts) (hdv : d.getVertex ∈ inp.net.graph.verts)
    (hne : d.getVertex ≠ p.getVertex) :
    selectedRoute inp src dst = none ↔
      ¬ Relation.ReflTransGen inp.net.graph.Edge p.getVertex d.getVertex := by
  obtain ⟨pred, hpred, hmem, htree⟩ := hdijkstra p.getVertex hpv _ _
    (indexMap_fillContext (r := inp.routing)) (weightMap_fillContext hweights)
  have hroute : selectedRoute inp src dst =
      (routeAlong inp.net pred p.getVertex d).map (List.map (·.pid)) := by
    simp [selectedRoute, hmode, shortestRoute, hp, hd, hpred]
  rw [hroute, Option.map_eq_none_iff]
  by_cases hself : pred d.getVertex = d.getVertex
  · refine iff_of_true (if_pos hself) ?_
    rcases htree.pred_eq_self_iff.1 hself with h | h
    · exact absurd h hne
    · exact h
  · have hreach : Relation.ReflTransGen inp.net.graph.Edge p.getVertex d.getVertex := by
      by_contra hnot
      exact hself (htree.pred_eq_self_iff.2 (.inr hnot))
    refine iff_of_false (fun hnone => ?_) (not_not_intro hreach)
    obtain ⟨back, hback⟩ := exists_backTo (htree.back _ (htree.reach_pred hreach)) hmem (hmem _ hdv)
    rw [routeAlong_eq hmem hdv hself hback] at hnone
    cases hnone

/-- Every pair of internal PIDs has the pDistance of its selected route. The static routes are those
that `verify_static_routing` accepts; without a route by weights the destination cannot be reached. -/
theorem computePDistances_intra {intra inter : PIDMatrix}
    (hunique : (inp.pids.map (·.pid)).Nodup)
    (hverify : verifyStaticRouting inp.net inp.pids inp.routing.staticRoutes = .ok true)
    (hintra : intra.HasPids S) (hrun : computePDistances inp external intra inter = .ok m) :
    (∀ src ∈ S, ∀ dst ∈ S, m.intra.entry src dst = some (intraSpec inp src dst)) ∧
      (inp.routing.routeMode = .weights →
        inp.libs.DijkstraSpec inp.net.graph (inp.routing.fillContext inp.net {}).edgeWeights →
        inp.routing.NonNegative inp.net → ∀ src dst p d, inp.pids.find src = some p →
        inp.pids.find dst = some d → p.getVertex ∈ inp.net.graph.verts →
        d.getVertex ∈ inp.net.graph.verts → d.getVertex ≠ p.getVertex →
        (selectedRoute inp src dst = none ↔
          ¬ Relation.ReflTransGen inp.net.graph.Edge p.getVertex d.getVertex)) := by
  have hfilled := computePDistances_filled (hopsPinned_of_verify hverify) hunique hintra hrun
  refine ⟨fun src hsrc dst hdst => ?_, fun hmode hdijkstra hweights src dst p d hp hd => ?_⟩
  · exact hfilled.rows src (Std.ExtTreeSet.mem_toList.2 hsrc) dst hdst
  · exact selectedRoute_eq_none_iff hmode hdijkstra hweights hp hd

/-- The view of the two vertices of `lineNet`, with a pDistance for the link between them. -/
def lineInputs : Inputs where
  libs := lineLibs
  net := lineNet
  pids := [.ofVertex (linePid 0) 0, .ofVertex (linePid 1) 1]
  routing := .new 1
  static := ((PIDMatrix.empty.setPids
    (((∅ : StdSet PID).insert (linePid 0)).insert (linePid 1))).setByPid (linePid 0) (linePid 1) 7).2
  dynamic := .empty
  view := .new ""

theorem computePDistances_intra_line :
    ∃ m, computePDistances lineInputs ∅
        (PIDMatrix.empty.setPids (((∅ : StdSet PID).insert (linePid 0)).insert (linePid 1)))
        PIDMatrix.empty = .ok m ∧
      m.intra.entry (linePid 0) (linePid 1) = some 7 := by
  cases hrun : computePDistances lineInputs ∅
      (PIDMatrix.empty.setPids (((∅ : StdSet PID).insert (linePid 0)).insert (linePid 1)))
      PIDMatrix.empty with
  | error e =>
    have hok : (computePDistances lineInputs ∅
      (PIDMatrix.empty.setPids (((∅ : StdSet PID).insert (linePid 0)).insert (linePid 1)))
      PIDMatrix.empty).toBool = true := by decide +kernel
    rw [hrun] at hok
    cases hok
  | ok m =>
    refine ⟨m, rfl, ?_⟩
    have hentry := (computePDistances_intra (by decide) (by decide) hasPids_setPids hrun).1
      (linePid 0) (by simp) (linePid 1) (by simp)
    rw [hentry]
    decide +kernel

end Alto.ViewUpdate
