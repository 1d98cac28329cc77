import Alto.Lib.MapEntries
import Alto.Server.PIDRoutes
import Alto.Verify.NetState

/-!
# Vertices and edges of the network state

Every edge has both ends in the graph and a new vertex has a descriptor that is not in use; all
operations keep that. The PID and the external flag of a vertex are changed by their setters only.
-/

namespace Alto

open Lib

namespace NetGraph

/-- There is an edge between two vertices. -/
def Edge (g : NetGraph) (u v : NetVertex) : Prop := toLex (u, v) ∈ g.edges

instance (g : NetGraph) (u v : NetVertex) : Decidable (g.Edge u v) :=
  inferInstanceAs (Decidable (toLex (u, v) ∈ g.edges))

theorem mem_edgesByEnds {g : NetGraph} {u v : NetVertex} :
    g.Edge u v ↔ ∃ e ∈ g.edgesByEnds, e.1.src = u ∧ e.1.dst = v := by
  constructor
  · intro h
    obtain ⟨⟨i, props⟩, hget⟩ := StdMap.mem_iff_get.1 h
    refine ⟨(⟨u, v, i⟩, props), ?_, rfl, rfl⟩
    exact List.mem_map.2 ⟨_, Std.ExtTreeMap.mem_toList_iff_getElem?_eq_some.2 hget, rfl⟩
  · rintro ⟨e, he, rfl, rfl⟩
    obtain ⟨x, hx, rfl⟩ := List.mem_map.1 he
    exact StdMap.mem_iff_get.2 ⟨x.2, Std.ExtTreeMap.mem_toList_iff_getElem?_eq_some.1 hx⟩

theorem mem_edgeList {g : NetGraph} {u v : NetVertex} :
    g.Edge u v ↔ ∃ e ∈ g.edgeList, e.1.src = u ∧ e.1.dst = v := by
  rw [mem_edgesByEnds]
  simp only [(NetState.edgeList_perm g).mem_iff]

/-- Descriptors in use are below the next one, and edges end in vertices of the graph. -/
structure Closed (g : NetGraph) : Prop where
  fresh : ∀ v ∈ g.verts, v < g.next
  ends : ∀ u v, g.Edge u v → u ∈ g.verts ∧ v ∈ g.verts

/-- The same vertices, and at most new edges between them. -/
structure Extends (g g' : NetGraph) : Prop where
  verts : g'.verts = g.verts
  next : g.next ≤ g'.next
  edge : ∀ u v, g'.Edge u v → g.Edge u v ∨ u ∈ g.verts ∧ v ∈ g.verts

variable {g g' g'' : NetGraph}

theorem Extends.refl (g : NetGraph) : Extends g g := ⟨rfl, Nat.le_refl _, fun _ _ h => .inl h⟩

theorem Extends.trans (h : Extends g g') (h' : Extends g' g'') : Extends g g'' where
  verts := h'.verts.trans h.verts
  next := Nat.le_trans h.next h'.next
  edge u v he := by
    rcases h'.edge u v he with he | he
    · exact h.edge u v he
    · rw [h.verts] at he
      exact .inr he

theorem Closed.extends (h : g.Closed) (hext : Extends g g') : g'.Closed where
  fresh v hv := Nat.lt_of_lt_of_le (h.fresh v (hext.verts ▸ hv)) hext.next
  ends u v he := by
    rw [hext.verts]
    exact (hext.edge u v he).elim (h.ends u v) id

theorem edge_insert {x : Nat × EdgeProps} {u v s d : NetVertex} {n : Nat} :
    NetGraph.Edge { g with edges := g.edges.insert (toLex (s, d)) x, next := n } u v ↔
      (s = u ∧ d = v) ∨ g.Edge u v := by
  rw [Edge, Std.ExtTreeMap.mem_insert, compare_eq_iff_eq, toLex_inj, Prod.mk_inj, Edge]

theorem extends_putEdge {e : NetEdge} {p : EdgeProps} (hs : e.src ∈ g.verts)
    (hd : e.dst ∈ g.verts) : Extends g (g.putEdge e p) := by
  refine ⟨rfl, Nat.le_refl _, fun u v h => ?_⟩
  rcases edge_insert.1 h with ⟨rfl, rfl⟩ | h
  · exact .inr ⟨hs, hd⟩
  · exact .inl h

theorem extends_addEdge {s d : NetVertex} (hs : s ∈ g.verts) (hd : d ∈ g.verts) :
    Extends g (g.addEdge s d).2.2 ∧ (g.addEdge s d).1.src = s ∧ (g.addEdge s d).1.dst = d := by
  unfold addEdge
  split
  · exact ⟨.refl g, rfl, rfl⟩
  · refine ⟨⟨rfl, Nat.le_succ _, fun u v h => ?_⟩, rfl, rfl⟩
    rcases edge_insert.1 h with ⟨rfl, rfl⟩ | h
    · exact .inr ⟨hs, hd⟩
    · exact .inl h

theorem extends_mergeEdge (rnd : ℚ → Double) {s d : NetVertex} (p : EdgeProps) (hs : s ∈ g.verts)
    (hd : d ∈ g.verts) : Extends g (NetState.mergeEdge rnd g s d p) := by
  obtain ⟨hext, hsrc, hdst⟩ := extends_addEdge hs hd
  unfold NetState.mergeEdge
  split
  · next e g' heq =>
    rw [heq] at hext hsrc hdst
    exact hext.trans (extends_putEdge (by rw [hext.verts, hsrc]; exact hs)
      (by rw [hext.verts, hdst]; exact hd))
  · next e g' heq =>
    rw [heq] at hext hsrc hdst
    split
    · exact hext.trans (extends_putEdge (by rw [hext.verts, hsrc]; exact hs)
        (by rw [hext.verts, hdst]; exact hd))
    · exact hext

theorem extends_foldl_mergeEdge (rnd : ℚ → Double) {X : Type} {l : List X} (src dst : X → NetVertex)
    (props : X → EdgeProps) (hs : ∀ x ∈ l, src x ∈ g.verts) (hd : ∀ x ∈ l, dst x ∈ g.verts) :
    Extends g (l.foldl (fun g x => NetState.mergeEdge rnd g (src x) (dst x) (props x)) g) := by
  induction l generalizing g with
  | nil => exact .refl g
  | cons x l ih =>
    have hstep := extends_mergeEdge rnd (props x) (hs x List.mem_cons_self)
      (hd x List.mem_cons_self)
    refine hstep.trans (ih (fun y hy => ?_) fun y hy => ?_)
    · rw [hstep.verts]
      exact hs y (List.mem_cons_of_mem _ hy)
    · rw [hstep.verts]
      exact hd y (List.mem_cons_of_mem _ hy)

theorem Closed.copyEdges (h : g.Closed) (rnd : ℚ → Double) (vertices : StdSet NetVertex)
    {agg : NetVertex} (hagg : agg ∈ g.verts) (v : NetVertex) :
    Extends g (NetState.copyEdges rnd vertices agg g v) := by
  have hends : ∀ {g : NetGraph}, g.Closed → ∀ e ∈ g.edgesByEnds,
      e.1.src ∈ g.verts ∧ e.1.dst ∈ g.verts :=
    fun h e he => h.ends _ _ (mem_edgesByEnds.2 ⟨e, he, rfl, rfl⟩)
  have hin := extends_foldl_mergeEdge (g := g) rnd
    (l := g.edgesByEnds.filter fun x => x.1.dst = v ∧ x.1.src ∉ vertices)
    (fun x => x.1.src) (fun _ => agg) (fun x => x.2)
    (fun x hx => (hends h x (List.mem_filter.1 hx).1).1) fun _ _ => hagg
  refine hin.trans ?_
  have hclosed := h.extends hin
  exact extends_foldl_mergeEdge rnd (fun _ => agg) (fun x => x.1.dst) (fun x => x.2)
    (fun _ _ => by rw [hin.verts]; exact hagg)
    fun x hx => (hends hclosed x (List.mem_filter.1 hx).1).2

theorem Closed.foldl_copyEdges (h : g.Closed) (rnd : ℚ → Double) (vertices : StdSet NetVertex)
    {agg : NetVertex} (hagg : agg ∈ g.verts) (vs : List NetVertex) :
    Extends g (vs.foldl (NetState.copyEdges rnd vertices agg) g) := by
  induction vs generalizing g with
  | nil => exact .refl g
  | cons v vs ih =>
    have hstep := h.copyEdges rnd vertices hagg v
    exact hstep.trans (ih (h.extends hstep) (hstep.verts ▸ hagg))

theorem edge_of_filter {f : NetVertex ×ₗ NetVertex → Nat × EdgeProps → Bool} {u v : NetVertex}
    {vs : StdMap NetVertex VertexProps} {n : Nat}
    (h : NetGraph.Edge ⟨vs, g.edges.filter f, n⟩ u v) :
    g.Edge u v ∧ ∃ x, f (toLex (u, v)) x = true := by
  obtain ⟨x, hx⟩ := StdMap.mem_iff_get.1 h
  simp only [Std.ExtTreeMap.getElem?_filter', Option.filter_eq_some_iff] at hx
  exact ⟨StdMap.mem_iff_get.2 ⟨x, hx.1⟩, x, hx.2⟩

theorem Closed.removeVertex (h : g.Closed) (x : NetVertex) : (g.removeVertex x).Closed where
  fresh v hv := h.fresh v (Std.ExtTreeMap.mem_of_mem_erase hv)
  ends u v he := by
    obtain ⟨he, y, hy⟩ := edge_of_filter he
    obtain ⟨hu, hv⟩ := h.ends u v he
    simp only [ofLex_toLex] at hy
    replace hy := of_decide_eq_true hy
    rw [NetGraph.removeVertex, Std.ExtTreeMap.mem_erase, Std.ExtTreeMap.mem_erase]
    simp only [compare_eq_iff_eq, ne_eq]
    exact ⟨⟨Ne.symm hy.1, hu⟩, ⟨Ne.symm hy.2, hv⟩⟩

end NetGraph

namespace NetState

open NetGraph

variable {net net' : NetState} {v w : NetVertex}

/-- The external flag and the PID of a vertex. -/
def tags (net : NetState) (v : NetVertex) : Option (Bool × PID) :=
  net.graph.verts[v]?.map fun p => (p.external, p.pid)

theorem mem_verts_iff_tags : v ∈ net.graph.verts ↔ ∃ t, net.tags v = some t := by
  rw [StdMap.mem_iff_get]
  constructor
  · rintro ⟨p, hp⟩
    exact ⟨_, by rw [tags, hp]; rfl⟩
  · rintro ⟨t, ht⟩
    obtain ⟨p, hp, -⟩ := Option.map_eq_some_iff.1 ht
    exact ⟨p, hp⟩

theorem getPid_eq : net.getPid v = (net.tags v).map (·.2) := by
  rw [getPid, tags, Option.map_map]
  rfl

theorem getExternal_eq : net.getExternal v = (net.tags v).map (·.1) := by
  rw [getExternal, tags, Option.map_map]
  rfl

/-! ## The setters -/

/-- A vertex has new tags, and all else that the updates read is the same. -/
structure Retagged (net net' : NetState) (v : NetVertex) (t : Bool × PID) : Prop where
  tags : ∀ u, net'.tags u = if u = v then some t else net.tags u
  edges : net'.graph.edges = net.graph.edges
  next : net'.graph.next = net.graph.next
  names : net'.nameVertMap = net.nameVertMap

theorem Retagged.mem_verts {t : Bool × PID} (h : Retagged net net' v t) (hv : v ∈ net.graph.verts)
    (u : NetVertex) : u ∈ net'.graph.verts ↔ u ∈ net.graph.verts := by
  rw [mem_verts_iff_tags, mem_verts_iff_tags, h.tags]
  by_cases hu : u = v
  · subst hu
    exact iff_of_true ⟨t, if_pos rfl⟩ (mem_verts_iff_tags.1 hv)
  · rw [if_neg hu]

theorem Closed.of_mem_verts (h : net.graph.Closed)
    (hmem : ∀ u, u ∈ net'.graph.verts ↔ u ∈ net.graph.verts)
    (hedges : net'.graph.edges = net.graph.edges) (hnext : net.graph.next ≤ net'.graph.next) :
    net'.graph.Closed where
  fresh u hu := Nat.lt_of_lt_of_le (h.fresh u ((hmem u).1 hu)) hnext
  ends a b he := by
    rw [hmem, hmem]
    exact h.ends a b (by rwa [Edge, ← hedges])

theorem Retagged.closed {t : Bool × PID} (h : Retagged net net' v t) (hv : v ∈ net.graph.verts)
    (hclosed : net.graph.Closed) : net'.graph.Closed :=
  Closed.of_mem_verts hclosed (h.mem_verts hv) h.edges (Nat.le_of_eq h.next.symm)

theorem tags_modify (f : VertexProps → VertexProps) {p : VertexProps}
    (hp : net.graph.verts[v]? = some p) :
    Retagged net { net with graph := { net.graph with verts := net.graph.verts.modify v f } } v
      ((f p).external, (f p).pid) := by
  refine ⟨fun u => ?_, rfl, rfl, rfl⟩
  simp only [NetState.tags, Std.ExtTreeMap.getElem?_modify, compare_eq_iff_eq]
  by_cases hu : v = u
  · subst hu
    simp [hp]
  · simp [hu, Ne.symm hu]

theorem setPid_retagged {t : Bool × PID} (h : net.tags v = some t) (value : PID) :
    ∃ net', net.setPid v value = some net' ∧ Retagged net net' v (t.1, value) := by
  obtain ⟨p, hp, rfl⟩ := Option.map_eq_some_iff.1 h
  exact ⟨_, if_pos (StdMap.mem_iff_get.2 ⟨p, hp⟩), tags_modify _ hp⟩

theorem setExternal_retagged {t : Bool × PID} (h : net.tags v = some t) (value : Bool) :
    ∃ net', net.setExternal v value = some net' ∧ Retagged net net' v (value, t.2) := by
  obtain ⟨p, hp, rfl⟩ := Option.map_eq_some_iff.1 h
  exact ⟨_, if_pos (StdMap.mem_iff_get.2 ⟨p, hp⟩), tags_modify _ hp⟩

/-! ## Removal -/

/-- Some vertices are gone. -/
structure Removed (net net' : NetState) (gone : NetVertex → Prop) : Prop where
  closed : net'.graph.Closed
  out : ∀ u, gone u → net'.tags u = none
  kept : ∀ u, ¬ gone u → net'.tags u = net.tags u
  next : net'.graph.next = net.graph.next

theorem removeVertex_removed (hclosed : net.graph.Closed) (hv : v ∈ net.graph.verts) :
    ∃ net', net.removeVertex v = some net' ∧ Removed net net' (· = v) := by
  obtain ⟨p, hp⟩ := StdMap.mem_iff_get.1 hv
  refine ⟨{ net with
    graph := net.graph.removeVertex v, nameVertMap := net.nameVertMap.erase p.name },
    by rw [removeVertex, hp]; rfl, hclosed.removeVertex v, fun u hu => ?_, fun u hu => ?_, rfl⟩
  · simp [tags, NetGraph.removeVertex, hu]
  · simp [tags, NetGraph.removeVertex, StdMap.get_erase, Ne.symm hu]

theorem foldlM_removeVertex {vs : List NetVertex} (hclosed : net.graph.Closed) (hnodup : vs.Nodup)
    (hvs : ∀ v ∈ vs, v ∈ net.graph.verts) :
    ∃ net', vs.foldlM removeVertex net = some net' ∧ Removed net net' (· ∈ vs) := by
  induction vs generalizing net with
  | nil =>
    exact ⟨net, rfl, hclosed, fun u hu => absurd hu List.not_mem_nil, fun _ _ => rfl, rfl⟩
  | cons v vs ih =>
    obtain ⟨hv, hnodup⟩ := List.nodup_cons.1 hnodup
    obtain ⟨mid, hmid, hone⟩ := removeVertex_removed hclosed (hvs v List.mem_cons_self)
    obtain ⟨net', hrun, hrest⟩ := ih hone.closed hnodup fun u hu => by
      have hne : u ≠ v := fun heq => hv (heq ▸ hu)
      rw [mem_verts_iff_tags, hone.kept u hne, ← mem_verts_iff_tags]
      exact hvs u (List.mem_cons_of_mem _ hu)
    refine ⟨net', ?_, hrest.closed, fun u hu => ?_, fun u hu => ?_, hrest.next.trans hone.next⟩
    · rw [List.foldlM_cons, hmid]
      exact hrun
    · by_cases hmem : u ∈ vs
      · exact hrest.out u hmem
      · rw [hrest.kept u hmem]
        exact hone.out u ((List.mem_cons.1 hu).resolve_right hmem)
    · rw [hrest.kept u fun h => hu (List.mem_cons_of_mem _ h),
        hone.kept u fun h => hu (List.mem_cons.2 (.inl h))]

/-! ## Aggregation -/

/-- The vertex that stands for a set of vertices: the only one of the set, or a new one. -/
structure Aggregated (net net' : NetState) (vertices : StdSet NetVertex) (w : NetVertex) : Prop where
  closed : net'.graph.Closed
  alive : w ∈ net'.graph.verts
  target : (∀ v, v ∈ vertices ↔ v = w) ∨
    net.graph.next ≤ w ∧ ¬ ∃ x, ∀ v, v ∈ vertices ↔ v = x
  out : ∀ u, u ≠ w → u ∈ vertices → net'.tags u = none
  kept : ∀ u, u ≠ w → u ∉ vertices → net'.tags u = net.tags u
  next : net.graph.next ≤ net'.graph.next

theorem setVertexName_tags (hv : v ∈ net.graph.verts) (name : String) :
    ∃ net', net.setVertexName v name = some net' ∧ net'.tags = net.tags ∧
      net'.graph.edges = net.graph.edges ∧ net'.graph.next = net.graph.next := by
  obtain ⟨p, hp⟩ := StdMap.mem_iff_get.1 hv
  refine ⟨{ net with
    graph := { net.graph with verts := net.graph.verts.insert v { p with name } }
    nameVertMap := (net.nameVertMap.erase p.name).insertIfNew name v },
    by rw [setVertexName, hp]; rfl, ?_, rfl, rfl⟩
  funext u
  simp only [tags, StdMap.get_insert]
  split
  · next hu =>
    subst hu
    simp [hp]
  · rfl

theorem addNode_tags {name : String} (hname : net.getNode name = none) (hclosed : net.graph.Closed) :
    ∃ net', net.addNode name = (some net.graph.next, net') ∧ net'.graph.Closed ∧
      net.graph.next ≤ net'.graph.next ∧
      ∀ u, net'.tags u = if u = net.graph.next then some (false, default) else net.tags u := by
  have hmem : ∀ u, u ∈ (net.graph.addVertex name).2.verts ↔
      net.graph.next = u ∨ u ∈ net.graph.verts := by
    intro u
    rw [addVertex, Std.ExtTreeMap.mem_insert, compare_eq_iff_eq]
  refine ⟨{ net with
    graph := (net.graph.addVertex name).2
    nameVertMap := net.nameVertMap.insertIfNew name net.graph.next },
    by rw [addNode, hname]; rfl, ⟨fun u hu => ?_, fun a b he => ?_⟩, Nat.le_succ _, fun u => ?_⟩
  · rcases (hmem u).1 hu with rfl | hu
    · exact Nat.lt_succ_self _
    · exact Nat.lt_succ_of_lt (hclosed.fresh u hu)
  · obtain ⟨ha, hb⟩ := hclosed.ends a b he
    exact ⟨(hmem a).2 (.inr ha), (hmem b).2 (.inr hb)⟩
  · simp only [tags, addVertex, StdMap.get_insert]
    by_cases hu : u = net.graph.next
    · simp [hu]
    · simp [hu, Ne.symm hu]

/-- Aggregation fails if the name is taken, and else the set is replaced by one vertex. -/
theorem aggregateNode_ok (rnd : ℚ → Double) {vertices : StdSet NetVertex} {name : String}
    (hclosed : net.graph.Closed) (hsub : ∀ v ∈ vertices, v ∈ net.graph.verts) :
    (∃ net', net.aggregateNode rnd vertices name = some (none, net')) ∨
      ∃ w net', net.aggregateNode rnd vertices name = some (some w, net') ∧
        Aggregated net net' vertices w := by
  have hmem : ∀ v, v ∈ vertices.toList ↔ v ∈ vertices := fun v => Std.ExtTreeSet.mem_toList
  have hnodup := StdSet.nodup_toList vertices
  have hone : ∀ v, vertices.toList = [v] ↔ ∀ u, u ∈ vertices ↔ u = v := fun v =>
    StdSet.toList_eq_singleton_iff
  generalize hvs : vertices.toList = vs at hmem hnodup hone
  rw [aggregateNode, hvs]
  split
  · next v =>
    replace hone := (hone v).1 rfl
    have hv := hsub v ((hone v).2 rfl)
    obtain ⟨net', hname, htags, hedges, hnext⟩ := setVertexName_tags hv name
    have hverts : ∀ u, u ∈ net'.graph.verts ↔ u ∈ net.graph.verts := fun u => by
      rw [mem_verts_iff_tags, mem_verts_iff_tags, htags]
    refine .inr ⟨v, net', by rw [hname]; rfl,
      Closed.of_mem_verts hclosed hverts hedges (Nat.le_of_eq hnext.symm), (hverts v).2 hv,
      .inl hone, fun u hu hmem => absurd ((hone u).1 hmem) hu, fun u _ _ => by rw [htags],
      Nat.le_of_eq hnext.symm⟩
  · next hne =>
    have hmany : ¬ ∃ x, ∀ v, v ∈ vertices ↔ v = x := by
      rintro ⟨x, hx⟩
      exact hne x ((hone x).2 hx)
    cases hname : net.getNode name with
    | some v =>
      refine .inl ⟨net, ?_⟩
      rw [addNode, hname]
    | none =>
      obtain ⟨mid, hadd, hmid, hnext, htags⟩ := addNode_tags hname hclosed
      have hnew : ∀ v ∈ vs, v ≠ net.graph.next := fun v hv =>
        Nat.ne_of_lt (hclosed.fresh v (hsub v ((hmem v).1 hv)))
      have hvs' : ∀ v ∈ vs, v ∈ mid.graph.verts := fun v hv => by
        rw [mem_verts_iff_tags, htags, if_neg (hnew v hv), ← mem_verts_iff_tags]
        exact hsub v ((hmem v).1 hv)
      have hw : net.graph.next ∈ mid.graph.verts := by
        rw [mem_verts_iff_tags, htags]
        exact ⟨_, if_pos rfl⟩
      -- the edges of the set are copied, then the set is removed
      have hcopy := hmid.foldl_copyEdges rnd vertices hw vs
      have htags' : ∀ u, NetState.tags { mid with
          graph := vs.foldl (NetState.copyEdges rnd vertices net.graph.next) mid.graph } u =
          mid.tags u := fun u => by rw [tags, hcopy.verts, tags]
      obtain ⟨net', hrun, hremoved⟩ := @foldlM_removeVertex
        { mid with graph := vs.foldl (NetState.copyEdges rnd vertices net.graph.next) mid.graph } _
        (hmid.extends hcopy) hnodup fun v hv => by rw [hcopy.verts]; exact hvs' v hv
      refine .inr ⟨net.graph.next, net', ?_, hremoved.closed, ?_,
        .inr ⟨Nat.le_refl _, hmany⟩, fun u _ hu => ?_, fun u hne hu => ?_, ?_⟩
      · rw [hadd]
        simp only
        rw [if_pos (by simpa using hvs'), hrun]
        rfl
      · rw [mem_verts_iff_tags, hremoved.kept _ fun h => hnew _ h rfl, htags', htags]
        exact ⟨_, if_pos rfl⟩
      · exact hremoved.out u ((hmem u).2 hu)
      · rw [hremoved.kept u fun h => hu ((hmem u).1 h), htags', htags, if_neg hne]
      · rw [hremoved.next]
        exact Nat.le_trans hnext hcopy.next

/-! ## Runs -/

theorem closed_putEdge (h : net.graph.Closed) {e : NetEdge} {p q : EdgeProps}
    (hp : net.graph.edge? e = some p) : (net.graph.putEdge e q).Closed := by
  obtain ⟨hs, hd⟩ := h.ends e.src e.dst (StdMap.mem_iff_get.2 ⟨_, edge?_eq_some.1 hp⟩)
  exact h.extends (extends_putEdge hs hd)

theorem closed_removeEdge (h : net.graph.Closed) {e : NetEdge}
    (hrun : net.removeEdge e = some net') : net'.graph.Closed := by
  obtain ⟨p, -, rfl⟩ := Option.map_eq_some_iff.1 hrun
  exact ⟨h.fresh, fun u v he => h.ends u v (Std.ExtTreeMap.mem_of_mem_erase he)⟩

theorem closed_removeVertex (h : net.graph.Closed) (hrun : net.removeVertex v = some net') :
    net'.graph.Closed := by
  obtain ⟨p, -, rfl⟩ := Option.map_eq_some_iff.1 hrun
  exact h.removeVertex v

theorem closed_foldlM_removeVertex {vs : List NetVertex} (h : net.graph.Closed)
    (hrun : vs.foldlM removeVertex net = some net') : net'.graph.Closed := by
  induction vs generalizing net with
  | nil => exact Option.some.inj hrun ▸ h
  | cons v vs ih =>
    rw [List.foldlM_cons] at hrun
    obtain ⟨mid, hmid, hrun⟩ := Option.bind_eq_some_iff.1 hrun
    exact ih (closed_removeVertex h hmid) hrun

theorem closed_addNode (h : net.graph.Closed) (name : String) : (net.addNode name).2.graph.Closed := by
  cases hname : net.getNode name with
  | some v =>
    rw [addNode, hname]
    exact h
  | none =>
    obtain ⟨net', hadd, hclosed, -, -⟩ := addNode_tags hname h
    rw [hadd]
    exact hclosed

theorem closed_addEdge (h : net.graph.Closed) {src dst : NetVertex}
    {res : Option NetEdge × NetState} (hrun : net.addEdge src dst = some res) :
    res.2.graph.Closed := by
  rw [addEdge] at hrun
  split at hrun
  · next hmem =>
    obtain ⟨hext, hsrc, hdst⟩ := extends_addEdge hmem.1 hmem.2
    split at hrun
    · obtain rfl := Option.some.inj hrun
      exact h
    · next e g heq =>
      obtain rfl := Option.some.inj hrun
      rw [heq] at hext hsrc hdst
      refine (h.extends hext).extends (extends_putEdge ?_ ?_)
      · rw [hsrc, hext.verts]
        exact hmem.1
      · rw [hdst, hext.verts]
        exact hmem.2
  · cases hrun

theorem closed_setVertexName (h : net.graph.Closed) {name : String}
    (hrun : net.setVertexName v name = some net') : net'.graph.Closed := by
  obtain ⟨p, hp, -⟩ := Option.map_eq_some_iff.1 hrun
  obtain ⟨mid, hmid, htags, hedges, hnext⟩ :=
    setVertexName_tags (StdMap.mem_iff_get.2 ⟨p, hp⟩) name
  obtain rfl := Option.some.inj (hmid.symm.trans hrun)
  refine Closed.of_mem_verts h (fun u => ?_) hedges (Nat.le_of_eq hnext.symm)
  rw [mem_verts_iff_tags, mem_verts_iff_tags, htags]

theorem closed_aggregateNode (h : net.graph.Closed) (rnd : ℚ → Double)
    {vertices : StdSet NetVertex} {name : String} {res : Option NetVertex × NetState}
    (hrun : net.aggregateNode rnd vertices name = some res) : res.2.graph.Closed := by
  rw [aggregateNode] at hrun
  split at hrun
  · obtain ⟨net', hset, rfl⟩ := Option.map_eq_some_iff.1 hrun
    exact closed_setVertexName h hset
  · have hadd := closed_addNode h name
    split at hrun
    · next net' heq =>
      obtain rfl := Option.some.inj hrun
      rwa [heq] at hadd
    · next w mid heq =>
      rw [heq] at hadd
      split at hrun
      · obtain ⟨net', hremove, rfl⟩ := Option.map_eq_some_iff.1 hrun
        have hw : w ∈ mid.graph.verts := by
          cases hname : net.getNode name with
          | some u =>
            rw [addNode, hname] at heq
            cases heq
          | none =>
            obtain ⟨mid', hadd', -, -, htags⟩ := addNode_tags hname h
            obtain ⟨hw, rfl⟩ := Prod.mk.inj (hadd'.symm.trans heq)
            obtain rfl := Option.some.inj hw
            exact mem_verts_iff_tags.2 ⟨_, (htags _).trans (if_pos rfl)⟩
        exact closed_foldlM_removeVertex
          (hadd.extends (hadd.foldl_copyEdges rnd vertices hw _)) hremove
      · cases hrun

theorem closed_step (rnd : ℚ → Double) {op : Op} (h : net.graph.Closed)
    (hs : step rnd net op = some net') : net'.graph.Closed := by
  cases op with
  | addNode name => exact Option.some.inj hs ▸ closed_addNode h name
  | removeNode name =>
    obtain ⟨res, hr, rfl⟩ := Option.map_eq_some_iff.1 hs
    rw [removeNode] at hr
    split at hr
    · obtain rfl := Option.some.inj hr
      exact h
    · obtain ⟨mid, hn, rfl⟩ := Option.map_eq_some_iff.1 hr
      exact closed_removeVertex h hn
  | removeVertex v => exact closed_removeVertex h hs
  | addEdge src dst =>
    obtain ⟨res, hr, rfl⟩ := Option.map_eq_some_iff.1 hs
    exact closed_addEdge h hr
  | addEdgeByName src dst =>
    obtain ⟨res, hr, rfl⟩ := Option.map_eq_some_iff.1 hs
    rw [addEdgeByName] at hr
    split at hr
    · exact closed_addEdge h hr
    · obtain rfl := Option.some.inj hr
      exact h
  | removeEdge e => exact closed_removeEdge h hs
  | removeEdgeByName src dst =>
    obtain ⟨res, hr, rfl⟩ := Option.map_eq_some_iff.1 hs
    rw [removeEdgeByName] at hr
    split at hr
    · obtain rfl := Option.some.inj hr
      exact h
    · obtain ⟨mid, hn, rfl⟩ := Option.map_eq_some_iff.1 hr
      exact closed_removeEdge h hn
  | setVertexName v value => exact closed_setVertexName h hs
  | setEdgeName e value =>
    obtain ⟨p, hp, rfl⟩ := Option.map_eq_some_iff.1 hs
    exact closed_putEdge h hp
  | setExternal v value =>
    simp only [step, setExternal] at hs
    split at hs
    · next hv =>
      obtain ⟨p, hp⟩ := StdMap.mem_iff_get.1 hv
      exact Option.some.inj hs ▸ (tags_modify _ hp).closed hv h
    · cases hs
  | setPid v value =>
    simp only [step, setPid] at hs
    split at hs
    · next hv =>
      obtain ⟨p, hp⟩ := StdMap.mem_iff_get.1 hv
      exact Option.some.inj hs ▸ (tags_modify _ hp).closed hv h
    · cases hs
  | setTraffic e value =>
    obtain ⟨p, hp, rfl⟩ := Option.map_eq_some_iff.1 hs
    exact closed_putEdge h hp
  | setCapacity e value =>
    obtain ⟨p, hp, rfl⟩ := Option.map_eq_some_iff.1 hs
    exact closed_putEdge h hp
  | aggregateNode vertices name =>
    obtain ⟨res, hr, rfl⟩ := Option.map_eq_some_iff.1 hs
    exact closed_aggregateNode h rnd hr
  | copy => exact Option.some.inj hs ▸ h

/-- The network states that the operations reach. -/
theorem closed_of_run {rnd : ℚ → Double} {ops : List Op}
    (h : Run (step rnd) (fun _ _ => True) empty ops net) : net.graph.Closed :=
  h.invariant (I := fun net => net.graph.Closed)
    ⟨fun _ hv => absurd hv Std.ExtTreeMap.not_mem_empty,
      fun _ _ he => absurd he Std.ExtTreeMap.not_mem_empty⟩
    fun _ _ _ hinv _ hs => closed_step rnd hinv hs

end NetState

end Alto
