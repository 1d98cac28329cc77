import Alto.Verify.ViewInterdomain
import Alto.Verify.ViewVertices

/-!
# View updates return

A view update on a network state that the operations reach, with PIDs that have nodes and do not share
them: no vertex is used after it was removed, and an exception escapes exactly if a search for routes
meets a negative weight. A PID without nodes lets the update throw.
-/

namespace Alto

open Lib Relation

/-- The edges that can be reached from a vertex have no negative weights. -/
def PIDRouting.Searchable (r : PIDRouting) (net : NetState) (src : NetVertex) : Prop :=
  ∀ u v, ReflTransGen net.graph.Edge src u → net.graph.Edge u v → (r.edgeWeight net u v).isNeg = false

/-- `dijkstra_shortest_paths` with the weights of a network state. It examines the edges that can be
reached from the source, and throws `negative_edge` if one of them has a negative weight. Otherwise the
predecessors it returns lead back to the source. -/
def ViewLibs.DijkstraExamines (libs : ViewLibs) (r : PIDRouting) (net : NetState) : Prop :=
  ∀ src ∈ net.graph.verts, ∀ idxs, net.graph.IndexMap idxs →
    (r.Searchable net src →
      ∃ pred, libs.dijkstra net.graph src idxs (r.fillContext net {}).edgeWeights = some pred ∧
        (∀ v ∈ net.graph.verts, pred v ∈ net.graph.verts) ∧
        ∀ v ∈ net.graph.verts, pred v ≠ v → ∃ n, pred^[n] (pred v) = src) ∧
    (¬ r.Searchable net src →
      libs.dijkstra net.graph src idxs (r.fillContext net {}).edgeWeights = none)

namespace ViewUpdate

open NetState PIDRouting PIDMatrix

variable {net : NetState} {view : View} {agg : PIDAggregation} {pids : PinnedPIDSet}
  {libs : ViewLibs} {inp : Inputs} {S E All : StdSet PID} {m : Matrices} {src : PID}

/-! ## Pinned PIDs after the passes -/

/-- Pinned PIDs with one vertex each, which is in the graph. -/
structure Alive (net : NetState) (pids : PinnedPIDSet) : Prop where
  single : ∀ p ∈ pids, p = .ofVertex p.pid p.getVertex
  verts : ∀ p ∈ pids, p.getVertex ∈ net.graph.verts

theorem Alive.of_find (h : Alive net pids) {pid : PID} {p : PinnedPID}
    (hp : pids.find pid = some p) : p.vertices.size = 1 ∧ p.getVertex ∈ net.graph.verts := by
  obtain ⟨hmem, -⟩ := PinnedPIDSet.pid_of_find hp
  refine ⟨?_, h.verts p hmem⟩
  rw [h.single p hmem]
  simp [PinnedPID.ofVertex, Std.ExtTreeSet.size_insert]

theorem Prepared.alive {u : ViewUpdate} (h : Prepared net view agg u pids) :
    u.net.graph.Closed ∧ Alive u.net pids := by
  obtain ⟨-, cur, net₂, agg₂, -, hall, hextra, rfl⟩ := h
  have hmem : ∀ p ∈ (tempPins 0 (temps view.extraNodeAction net₂ agg₂)).foldl PinnedPIDSet.insert
      agg₂, p ∈ agg₂ ∨ p ∈ tempPins 0 (temps view.extraNodeAction net₂ agg₂) := fun p hp =>
    ((PinnedPIDSet.mem_foldl_insert (nodup_tempPins _ _)).1 hp).imp_right And.left
  refine ⟨hextra.closed, fun p hp => ?_, fun p hp => ?_⟩
  · rcases hmem p hp with hp | hp
    · exact hall.single p hp
    · obtain ⟨i, x, -, rfl⟩ := mem_tempPins.1 hp
      rw [PinnedPID.pid_ofVertex, PinnedPID.getVertex_ofVertex]
  · rcases hmem p hp with hp | hp
    · refine (hextra.verts _).2 ⟨hall.alive p hp, fun he => he.1 ?_⟩
      exact (mem_agg_pinned hall).2 ⟨p, hp, rfl⟩
    · obtain ⟨i, x, hx, rfl⟩ := mem_tempPins.1 hp
      rw [PinnedPID.getVertex_ofVertex]
      exact (final_temp hextra (List.mem_of_getElem? hx)).1

/-- Every PID of the view is pinned. -/
theorem Prepared.find {u : ViewUpdate} (h : Prepared net view agg u pids) (hne : Resolved net agg)
    {pid : PID} (hpid : pid ∈ (viewPids net agg).all) : ∃ p, pids.find pid = some p := by
  obtain ⟨-, cur, net₂, agg₂, -, hall, -, rfl⟩ := h
  obtain ⟨e, he, rfl⟩ := (mem_foundPids pid).2.2.1 hpid
  obtain ⟨q, hq, hqpid⟩ := exists_agg hne hall he
  rw [← Option.isSome_iff_exists, PinnedPIDSet.find, List.find?_isSome]
  exact ⟨q, (PinnedPIDSet.mem_foldl_insert (nodup_tempPins _ _)).2 (.inl hq), by simpa using hqpid⟩

/-! ## Static routes -/

theorem verifyRoute_returns (h : Alive net pids) (route : List PID) (prev : Option NetVertex) :
    ∃ b, verifyRoute net pids prev route = .ok b := by
  induction route generalizing prev with
  | nil => exact ⟨true, rfl⟩
  | cons hop route ih =>
    rw [verifyRoute]
    cases hp : pids.find hop with
    | none => exact ⟨false, rfl⟩
    | some p =>
      obtain ⟨hsize, hverts⟩ := h.of_find hp
      cases prev with
      | none =>
        simp only [hsize, ne_eq, not_true_eq_false, if_false]
        exact ih _
      | some v =>
        simp only [hsize, ne_eq, not_true_eq_false, if_false, hverts]
        cases net.getEdgeBetween p.getVertex v with
        | none => exact ⟨false, rfl⟩
        | some e => exact ih _

theorem verifyStaticRouting_returns (h : Alive net pids) (routes : List StaticRoute) :
    ∃ b, verifyStaticRouting net pids routes = .ok b := by
  induction routes with
  | nil => exact ⟨true, rfl⟩
  | cons route routes ih =>
    obtain ⟨b, hb⟩ := verifyRoute_returns h route.route none
    simp only [verifyStaticRouting, hb, bind, Except.bind]
    cases b with
    | false => exact ⟨false, rfl⟩
    | true => exact ih

/-! ## The loops of `compute_pdistances` -/

/-- What the loops need: pinned vertices, and edges between vertices. -/
structure Usable (inp : Inputs) : Prop where
  closed : inp.net.graph.Closed
  alive : Alive inp.net inp.pids
  dijkstra : inp.libs.DijkstraExamines inp.routing inp.net

/-- Routes by weights can be searched from a PID. -/
def Searches (inp : Inputs) (src : PID) : Prop :=
  inp.routing.routeMode = .weights → ∀ p, inp.pids.find src = some p →
    inp.routing.Searchable inp.net p.getVertex

theorem getRoutes_returns (h : Usable inp) {p : PinnedPID} (hp : inp.pids.find src = some p)
    (hsearch : Searches inp src) {ctx : RouteContext} (hfits : inp.routing.Fits inp.net ctx) :
    ∃ b ctx', inp.routing.getRoutes inp.libs p inp.net inp.pids ctx = some (b, ctx') ∧
      inp.routing.Fits inp.net ctx' := by
  rw [getRoutes]
  cases hmode : inp.routing.routeMode with
  | static => exact ⟨_, _, rfl, hfits.getRoutesStatic⟩
  | weights =>
    have hpv := (h.alive.of_find hp).2
    obtain ⟨pred, hpred, hmem, hback⟩ := (h.dijkstra p.getVertex hpv _
      (indexMap_fillContext (r := inp.routing))).1 (hsearch hmode p hp)
    obtain ⟨ctx', hget, -, -⟩ := getRoutesWeights_eq hfits.ready hpv hpred hmem hback
      fun d hd => h.alive.verts d hd
    refine ⟨true, ctx', ?_, (hfits.getRoutesWeights hget).1⟩
    simp only [hget, Option.map_some]

theorem routesFrom_returns (h : Usable inp) (hfits : inp.routing.Fits inp.net m.ctx) {p : PinnedPID}
    (hp : inp.pids.find src = some p) (hsearch : Searches inp src) :
    ∃ ctx, routesFrom inp m src = .ok { m with ctx } ∧ inp.routing.Fits inp.net ctx := by
  obtain ⟨b, ctx, hget, hfits'⟩ := getRoutes_returns h hp hsearch hfits
  refine ⟨ctx, ?_, hfits'⟩
  simp only [routesFrom, hp, hget, orFault_some, bind, Except.bind, pure, Except.pure]

/-- A search that meets a negative weight throws. -/
theorem routesFrom_throws (h : Usable inp) (hfits : inp.routing.Fits inp.net m.ctx) {p : PinnedPID}
    (hp : inp.pids.find src = some p) (hsearch : ¬ Searches inp src) :
    routesFrom inp m src = .error .noRoutes := by
  obtain ⟨hmode, hnot⟩ : inp.routing.routeMode = .weights ∧
      ¬ inp.routing.Searchable inp.net p.getVertex := by
    unfold Searches at hsearch
    push Not at hsearch
    obtain ⟨hmode, p', hp', hnot⟩ := hsearch
    obtain rfl := Option.some.inj (hp.symm.trans hp')
    exact ⟨hmode, hnot⟩
  have hthrow := (h.dijkstra p.getVertex (h.alive.of_find hp).2 _
    (indexMap_fillContext (r := inp.routing))).2 hnot
  have hget : inp.routing.getRoutesWeights inp.libs p inp.net inp.pids m.ctx = none := by
    rw [Option.eq_none_iff_forall_ne_some]
    intro ctx' hget
    obtain ⟨-, pred, hpred, -⟩ := hfits.getRoutesWeights hget
    cases hthrow.symm.trans hpred
  have hroutes : inp.routing.getRoutes inp.libs p inp.net inp.pids m.ctx = none := by
    rw [getRoutes, hmode, hget]
    rfl
  simp only [routesFrom, hp, hroutes, orFault, bind, Except.bind]

theorem findInterdomainLinks_returns (hclosed : net.graph.Closed) :
    ∃ links, findInterdomainLinks net = .ok links := by
  have hpid : ∀ v ∈ net.graph.verts, ∃ pid, net.getPid v = some pid := fun v hv => by
    obtain ⟨t, ht⟩ := mem_verts_iff_tags.1 hv
    exact ⟨t.2, by rw [getPid_eq, ht]; rfl⟩
  obtain ⟨pairs, hpairs⟩ := mapM_total (E := UpdateFault) (l := net.graph.edgeList)
    (g := fun e => do
      let src ← orFault .deadVertex (net.getPid e.1.src)
      let dst ← orFault .deadVertex (net.getPid e.1.dst)
      return (src, dst)) fun e he => by
    obtain ⟨hs, hd⟩ := hclosed.ends _ _ (NetGraph.mem_edgeList.2 ⟨e, he, rfl, rfl⟩)
    obtain ⟨s, hs⟩ := hpid _ hs
    obtain ⟨d, hd⟩ := hpid _ hd
    exact ⟨(s, d), by rw [hs, hd]; rfl⟩
  refine ⟨pairs.filter fun l => l.1.external != l.2.external, ?_⟩
  rw [findInterdomainLinks, hpairs]
  rfl

theorem foldl_setInter_hasPids {A : Type*} (pdistance : Matrices → PID → PID → Double)
    (f : A → PID) (l : List A) (h : m.inter.HasPids All) :
    (l.foldl (fun m a => setInter pdistance m src (f a)) m).inter.HasPids All := by
  induction l generalizing m with
  | nil => exact h
  | cons a l ih =>
    refine ih ?_
    change (setInter pdistance m src (f a)).inter.HasPids All
    rw [setInter]
    split
    · exact h
    · exact h.setByPid

theorem fromInternal_returns (h : Usable inp) {external : StdSet PID} {i : IndexedPID}
    (hfits : inp.routing.Fits inp.net m.ctx ∧ m.inter.HasPids All) {p : PinnedPID}
    (hp : inp.pids.find i.pid = some p) (hsearch : Searches inp i.pid) :
    ∃ m', fromInternal inp external m i = .ok m' ∧ inp.routing.Fits inp.net m'.ctx ∧
      m'.inter.HasPids All := by
  obtain ⟨ctx, hroutes, hfits'⟩ := routesFrom_returns h hfits.1 hp hsearch
  simp only [fromInternal, hroutes, bind, Except.bind, pure, Except.pure]
  have hrow : ∀ (l : List IndexedPID) (m : Matrices), ∃ intra, l.foldl (fun (m : Matrices) dst =>
      { m with intra := m.intra.set i dst (intraPDistance inp m.ctx i dst) }) m =
        { m with intra } := by
    intro l
    induction l with
    | nil => exact fun m => ⟨m.intra, rfl⟩
    | cons j l ih =>
      intro m
      obtain ⟨intra, hintra⟩ := ih
        { m with intra := m.intra.set i j (intraPDistance inp m.ctx i j) }
      exact ⟨intra, hintra⟩
  obtain ⟨intra, hintra⟩ := hrow m.intra.pids { m with ctx }
  refine ⟨_, rfl, ?_, ?_⟩
  · have hctx := fun m => (@foldl_setInter_fields m i.pid PID (egressPDistance inp) id
      external.toList).2
    simp only [id_eq] at hctx
    rw [hctx, hintra]
    exact hfits'
  · refine foldl_setInter_hasPids (egressPDistance inp) id external.toList ?_
    rw [hintra]
    exact hfits.2

theorem fromExternal_returns (h : Usable inp) {i : IndexedPID}
    (hfits : inp.routing.Fits inp.net m.ctx) {p : PinnedPID} (hp : inp.pids.find i.pid = some p)
    (hsearch : i.pid.external = true → Searches inp i.pid) :
    ∃ m', fromExternal inp m i = .ok m' ∧ inp.routing.Fits inp.net m'.ctx := by
  rw [fromExternal]
  split
  · next hext =>
    obtain ⟨ctx, hroutes, hfits'⟩ := routesFrom_returns h hfits hp (hsearch hext)
    simp only [hroutes, bind, Except.bind, pure, Except.pure]
    refine ⟨_, rfl, ?_⟩
    rw [(foldl_setInter_fields (ingressPDistance inp) IndexedPID.pid _).2]
    exact hfits'
  · exact ⟨m, rfl, hfits⟩

/-- A loop whose rounds return under a condition on their PIDs, and only then. -/
structure ReturnsIff (f : Matrices → IndexedPID → Except UpdateFault Matrices) (l : List IndexedPID)
    (P : Matrices → Prop) (Q : IndexedPID → Prop) (m : Matrices) : Prop where
  returned : ∀ m', l.foldlM f m = .ok m' → P m' ∧ ∀ i ∈ l, Q i
  returns : (∀ i ∈ l, Q i) → ∃ m', l.foldlM f m = .ok m' ∧ P m'

theorem loop_returnsIff {f : Matrices → IndexedPID → Except UpdateFault Matrices}
    {l : List IndexedPID} {P : Matrices → Prop} {Q : IndexedPID → Prop}
    (hstep : ∀ m i, P m → i ∈ l → Q i → ∃ m', f m i = .ok m' ∧ P m')
    (hstuck : ∀ m i m', P m → i ∈ l → f m i = .ok m' → Q i) (h : P m) : ReturnsIff f l P Q m where
  returned m' hrun := by
    have hend := foldlM_ok (P := fun done rest m => P m ∧ done ++ rest = l ∧ ∀ i ∈ done, Q i)
      (f := f) (fun done i rest m m' hm hround => ?_) ⟨h, rfl, fun i hi => absurd hi List.not_mem_nil⟩
      hrun
    · exact ⟨hend.1, hend.2.2⟩
    · obtain ⟨hP, hsplit, hdone⟩ := hm
      have hi : i ∈ l := hsplit ▸ List.mem_append_right _ List.mem_cons_self
      have hQ := hstuck m i m' hP hi hround
      obtain ⟨m₁, hround', hP'⟩ := hstep m i hP hi hQ
      obtain rfl : m₁ = m' := Except.ok.inj (hround'.symm.trans hround)
      refine ⟨hP', by simpa using hsplit, fun j hj => ?_⟩
      rcases List.mem_append.1 hj with hj | hj
      · exact hdone j hj
      · exact List.mem_singleton.1 hj ▸ hQ
  returns hall := by
    obtain ⟨m', hrun, hP, -⟩ := foldlM_total (P := fun _ rest m => P m ∧ ∀ i ∈ rest, i ∈ l)
      (f := f) (fun _ i rest m h => by
        have hi := h.2 i List.mem_cons_self
        obtain ⟨m', hrun, h'⟩ := hstep m i h.1 hi (hall i hi)
        exact ⟨m', hrun, h', fun j hj => h.2 j (List.mem_cons_of_mem _ hj)⟩)
      ⟨h, fun i hi => hi⟩
    exact ⟨m', hrun, hP⟩

theorem fromInternal_returnsIff (h : Usable inp) (hfind : ∀ s ∈ S, ∃ p, inp.pids.find s = some p)
    (hfits : inp.routing.Fits inp.net m.ctx) (hpids : m.inter.HasPids All) :
    ReturnsIff (fromInternal inp E) (indexPids S)
      (fun m => inp.routing.Fits inp.net m.ctx ∧ m.inter.HasPids All)
      (fun i => Searches inp i.pid) m := by
  refine loop_returnsIff (fun m i hm hi hsearch => ?_) (fun m i m' hm hi hround => ?_) ⟨hfits, hpids⟩
  · obtain ⟨p, hp⟩ := hfind _ (pid_mem hi)
    exact fromInternal_returns h hm hp hsearch
  · obtain ⟨p, hp⟩ := hfind _ (pid_mem hi)
    by_contra hnot
    simp only [fromInternal, routesFrom_throws h hm.1 hp hnot, bind, Except.bind] at hround
    cases hround

theorem fromExternal_returnsIff (h : Usable inp) (hfind : ∀ s ∈ All, ∃ p, inp.pids.find s = some p)
    (hfits : inp.routing.Fits inp.net m.ctx) :
    ReturnsIff (fromExternal inp) (indexPids All) (fun m => inp.routing.Fits inp.net m.ctx)
      (fun i => i.pid.external = true → Searches inp i.pid) m := by
  refine loop_returnsIff (fun m i hm hi hsearch => ?_) (fun m i m' hm hi hround hext => ?_) hfits
  · obtain ⟨p, hp⟩ := hfind _ (pid_mem hi)
    exact fromExternal_returns h hm hp hsearch
  · obtain ⟨p, hp⟩ := hfind _ (pid_mem hi)
    by_contra hnot
    rw [fromExternal, if_pos hext] at hround
    simp only [routesFrom_throws h hm hp hnot, bind, Except.bind] at hround
    cases hround

/-- The pDistances are computed exactly if routes can be searched from all PIDs. -/
theorem computePDistances_returns_iff (h : Usable inp)
    (hfind : ∀ s ∈ All, ∃ p, inp.pids.find s = some p) (hsub : ∀ s ∈ S, s ∈ All)
    (hcover : ∀ s ∈ All, s ∈ S ∨ s.external = true) :
    (∃ m, computePDistances inp E (PIDMatrix.empty.setPids S) (PIDMatrix.empty.setPids All) =
      .ok m) ↔ ∀ s ∈ All, Searches inp s := by
  obtain ⟨links, hlinks⟩ := findInterdomainLinks_returns h.closed
  have hfirst := @fromInternal_returnsIff inp S E All
    ⟨PIDMatrix.empty.setPids S, setLinks inp links (PIDMatrix.empty.setPids All), {}⟩ h
    (fun s hs => hfind s (hsub s hs)) fits_fresh (setLinks_hasPids hasPids_setPids)
  have hintra : (PIDMatrix.empty.setPids S).pids = indexPids S := hasPids_setPids
  constructor
  · rintro ⟨m, hrun⟩ s hs
    obtain ⟨links', m₁, hlinks', hrun₁, hrun₂⟩ := computePDistances_loops hrun
    obtain rfl : links' = links := Except.ok.inj (hlinks'.symm.trans hlinks)
    rw [hintra] at hrun₁
    obtain ⟨⟨hfits, hpids⟩, hall₁⟩ := hfirst.returned m₁ hrun₁
    rw [hpids] at hrun₂
    obtain ⟨-, hall₂⟩ := (fromExternal_returnsIff h hfind hfits).returned m hrun₂
    rcases hcover s hs with hmem | hext
    · obtain ⟨i, hi, rfl⟩ := exists_index hmem
      exact hall₁ i hi
    · obtain ⟨i, hi, rfl⟩ := exists_index hs
      exact hall₂ i hi hext
  · intro hall
    obtain ⟨m₁, hrun₁, hfits, hpids⟩ := hfirst.returns fun i hi => hall _ (hsub _ (pid_mem hi))
    obtain ⟨m, hrun₂, -⟩ := (fromExternal_returnsIff h hfind hfits).returns
      fun i hi _ => hall _ (pid_mem hi)
    refine ⟨m, ?_⟩
    simp only [computePDistances, hlinks, bind, Except.bind, hintra, hrun₁]
    rw [hpids, hrun₂]

/-! ## An update -/

/-- A PID without a node: the vertex set of its `PinnedPID` is empty. -/
theorem findPids_throws {u : ViewUpdate} (hnames : NamesAlive u.net)
    (hno : ∃ e ∈ viewRecords agg, (recordVertices u.net e.2).isEmpty = true) :
    findPids u agg = .error .emptyVertexSet := by
  have hloop : ∀ (l : List (PID × PIDRecord)) (cur : NetState) (found : FoundPids),
      Retouched u.net cur → (∃ e ∈ l, (recordVertices u.net e.2).isEmpty = true) →
      l.foldlM findRecord ({ u with net := cur }, found) = .error .emptyVertexSet := by
    intro l
    induction l with
    | nil =>
      rintro _ _ _ ⟨e, he, -⟩
      cases he
    | cons e l ih =>
      intro cur found htouched hno
      rw [List.foldlM_cons]
      cases hempty : (recordVertices u.net e.2).isEmpty with
      | false =>
        obtain ⟨next, hnext, hret⟩ := @findRecord_ok _ { u with net := cur } hnames htouched
          found _ hempty
        rw [hnext]
        refine ih next _ hret ?_
        obtain ⟨x, hx, hxe⟩ := hno
        rcases List.mem_cons.1 hx with rfl | hx
        · rw [hempty] at hxe
          cases hxe
        · exact ⟨x, hx, hxe⟩
      | true =>
        have hverts : recordVertices cur e.2 = ∅ := by
          rw [htouched.recordVertices]
          exact Std.ExtTreeSet.isEmpty_iff.1 hempty
        have hfail : findRecord ({ u with net := cur }, found) e = .error .emptyVertexSet := by
          simp only [findRecord, hverts]
          rfl
        rw [hfail]
        rfl
  exact hloop _ u.net {} (.refl _) hno

/-- No search for routes by weights from a PID of the view meets a negative weight, in the topology
that `find_pids`, `aggregate_topology` and `handle_extra_nodes` make of the network state. -/
def NoNegativeLinks (libs : ViewLibs) (net : NetState) (view : View) (agg : PIDAggregation)
    (routing : PIDRouting) : Prop :=
  routing.routeMode = .weights → ∀ u found pids, prepare libs net view agg = .ok (some (u, found, pids)) →
    verifyStaticRouting u.net pids routing.staticRoutes = .ok true →
    ∀ s ∈ (viewPids net agg).all, ∀ p, pids.find s = some p → routing.Searchable u.net p.getVertex

/-- The condition is about the one topology that is prepared. -/
theorem noNegativeLinks_iff {routing : PIDRouting} {u : ViewUpdate} {b : Bool}
    (hok : prepare libs net view agg = .ok (some (u, viewPids net agg, pids)))
    (hb : verifyStaticRouting u.net pids routing.staticRoutes = .ok b) :
    NoNegativeLinks libs net view agg routing ↔ (b = true → routing.routeMode = .weights →
      ∀ s ∈ (viewPids net agg).all, ∀ p, pids.find s = some p →
        routing.Searchable u.net p.getVertex) := by
  constructor
  · intro h hbt hmode
    exact h hmode u _ pids hok (hbt ▸ hb)
  · intro h hmode u' found' pids' hok' hverified
    obtain ⟨rfl, -, rfl⟩ : u = u' ∧ viewPids net agg = found' ∧ pids = pids' := by
      simpa using hok.symm.trans hok'
    exact h (Except.ok.inj (hb.symm.trans hverified)) hmode

/-- If every PID has a node and PIDs share no nodes (or are the same single node), an update returns a
result or fails, unless a search meets a negative weight; then it throws. It also throws if a PID has no
node. -/
theorem computeResult_returns {rnd : ℚ → Double} {ops : List NetState.Op}
    (hnet : Run (NetState.step rnd) (fun _ _ => True) NetState.empty ops net)
    (plugin : NetState → PinnedPIDSet → PIDMatrix) (view : View) (agg : PIDAggregation)
    (routing : PIDRouting) (link : PIDMatrix)
    (hdijkstra : ∀ u found pids, prepare libs net view agg = .ok (some (u, found, pids)) →
      libs.DijkstraExamines routing u.net) :
    (Resolved net agg → (viewPids net agg).pids.Pairwise Apart →
        ((∃ res, computeResult libs plugin net view agg routing link = .ok res) ↔
          NoNegativeLinks libs net view agg routing)) ∧
      (¬ Resolved net agg →
        computeResult libs plugin net view agg routing link = .error .emptyVertexSet) := by
  refine ⟨fun hne hapart => ?_, fun hno => ?_⟩
  · rcases @prepare_ok _ view _ libs (closed_of_run hnet) hne hapart with
      hnone | ⟨u, pids, hok, hprep⟩
    · refine iff_of_true ⟨none, by simp only [computeResult, hnone, bind, Except.bind]; rfl⟩ ?_
      intro _ u found pids hok
      cases hnone.symm.trans hok
    · obtain ⟨hclosed, halive⟩ := hprep.alive
      obtain ⟨b, hb⟩ := verifyStaticRouting_returns halive routing.staticRoutes
      rw [noNegativeLinks_iff hok hb]
      simp only [computeResult, hok, hb, bind, Except.bind]
      cases b with
      | false => exact iff_of_true ⟨none, rfl⟩ fun h => by cases h
      | true =>
        have husable : Usable ⟨libs, u.net, pids, routing, link,
            if view.pluginName = "" then .empty else plugin u.net pids, view⟩ :=
          ⟨hclosed, halive, hdijkstra u _ pids hok⟩
        have hinternal : ∀ s ∈ (viewPids net agg).internal, s ∈ (viewPids net agg).all :=
          fun s hs => (mem_foundPids s).2.2.2 ((mem_foundPids s).1.1 hs).2
        have hcover : ∀ s ∈ (viewPids net agg).all,
            s ∈ (viewPids net agg).internal ∨ s.external = true := by
          intro s hs
          cases hext : s.external with
          | true => exact .inr rfl
          | false => exact .inl ((mem_foundPids s).1.2 ⟨hext, (mem_foundPids s).2.2.1 hs⟩)
        have hiff := computePDistances_returns_iff (E := (viewPids net agg).external) husable
          (fun s hs => hprep.find hne hs) hinternal hcover
        constructor
        · rintro ⟨res, hres⟩ - hmode s hs
          refine hiff.1 ?_ s hs hmode
          simp only [if_true] at hres
          split at hres
          · cases hres
          · next m hm => exact ⟨m, hm⟩
        · intro hall
          obtain ⟨m, hm⟩ := hiff.2 fun s hs hmode => hall rfl hmode s hs
          simp only [if_true, hm]
          exact ⟨_, rfl⟩
  · have hempty : ∃ e ∈ viewRecords agg,
        (recordVertices net.doCopyProperties e.2).isEmpty = true := by
      unfold Resolved at hno
      push Not at hno
      obtain ⟨e, he, hne⟩ := hno
      exact ⟨e, he, by simpa using hne⟩
    have hfind := findPids_throws (u := { netOrig := net, net := net.doCopyProperties })
      (namesAlive_copy net) hempty
    simp only [computeResult, prepare, hfind, bind, Except.bind]

/-- All weights are 1. -/
theorem searchable_new (net : NetState) (src : NetVertex) : (PIDRouting.new 1).Searchable net src :=
  fun _ _ _ _ => rfl

theorem lineLibs_examines (net : NetState) : lineLibs.DijkstraExamines (.new 1) net := by
  intro src hsrc idxs _
  refine ⟨fun _ => ⟨_, rfl, fun v hv => ?_, fun v _ hself => ⟨0, ?_⟩⟩,
    fun h => absurd (searchable_new net src) h⟩
  · split
    · next h => exact h.1 ▸ hsrc
    · exact hv
  · change (if src = 0 ∧ v = 1 then 0 else v) ≠ v at hself
    change (if src = 0 ∧ v = 1 then 0 else v) = src
    split at hself
    · next h => rw [if_pos h, h.1]
    · exact absurd rfl hself

theorem run_linked : Run (NetState.step fun q => .fin q) (fun _ _ => True) NetState.empty
    NetState.linkOps NetState.linked :=
  .cons trivial rfl (.cons trivial rfl (.cons trivial rfl (.cons trivial (by decide) (.nil _))))

theorem computeResult_returns_linked :
    ∃ res, computeResult lineLibs (fun _ _ => .empty) NetState.linked (.new "") (oneAgg (linePid 0))
      (.new 1) .empty = .ok res := by
  refine ((computeResult_returns run_linked (fun _ _ => .empty) (.new "") (oneAgg (linePid 0)) (.new 1)
    .empty fun u _ _ _ => lineLibs_examines u.net).1 ?_ ?_).2
      fun _ u _ _ _ _ _ _ p _ => searchable_new u.net p.getVertex
  · intro e he
    rw [viewRecords_oneAgg, List.mem_singleton] at he
    subst he
    change (recordVertices NetState.linked.doCopyProperties
      ⟨"x", (∅ : StdSet String).insert "a"⟩).isEmpty = false
    decide
  · obtain ⟨p, hp⟩ := List.length_eq_one_iff.1
      (by decide : (viewPids NetState.linked (oneAgg (linePid 0))).pids.length = 1)
    rw [hp]
    exact List.pairwise_singleton _ _

/-- The aggregation after a PID was added, as `AdminViewAddPID` does: it has no nodes, and the update
throws. -/
theorem computeResult_throws :
    ¬ ∀ (libs : ViewLibs) (rnd : ℚ → Double) (ops : List NetState.Op) (net : NetState)
      (plugin : NetState → PinnedPIDSet → PIDMatrix) (view : View) (agg : PIDAggregation)
      (routing : PIDRouting) (link : PIDMatrix),
      Run (NetState.step rnd) (fun _ _ => True) NetState.empty ops net →
      (∀ net, libs.DijkstraExamines routing net) →
      ∃ res, computeResult libs plugin net view agg routing link = .ok res := by
  intro h
  obtain ⟨res, hres⟩ := h lineLibs _ _ NetState.linked (fun _ _ => .empty) (.new "")
    (PIDAggregation.empty.add "x" (linePid 0) ∅).2 (.new 1) .empty run_linked lineLibs_examines
  have hfault : (computeResult lineLibs (fun _ _ => .empty) NetState.linked (.new "")
    (PIDAggregation.empty.add "x" (linePid 0) ∅).2 (.new 1) .empty).toBool = false := by decide
  rw [hres] at hfault
  cases hfault

end ViewUpdate

end Alto
