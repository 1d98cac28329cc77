import Alto.Verify.NetGraph

/-!
# What aggregation merges

The new vertex has an edge from or to every outside neighbour of the set, and only these; its traffic
and its capacity are the sums over the edges of the set. The copied edges end in the new vertex, so the
lists that are walked while they are added do not change.
-/

namespace Alto

open Lib

/-- The sum of a list, added from the left. -/
def Double.sum (rnd : ℚ → Double) : List Double → Double
  | [] => 0
  | x :: l => l.foldl (add rnd) x

/-- Without rounding it is the sum of the values. -/
theorem Double.sum_fin (l : List ℚ) : Double.sum .fin (l.map .fin) = .fin l.sum := by
  cases l with
  | nil => rfl
  | cons x l =>
    rw [List.map_cons, Double.sum, List.sum_cons]
    induction l generalizing x with
    | nil => simp
    | cons y l ih =>
      rw [List.map_cons, List.foldl_cons, List.sum_cons, ← add_assoc]
      exact ih (x + y)

namespace NetGraph

/-- The properties of the edge between two vertices. -/
def props (g : NetGraph) (u v : NetVertex) : Option EdgeProps :=
  g.edges[toLex (u, v)]?.map (·.2)

variable {g g' : NetGraph} {u v w s d a b : NetVertex} {rnd : ℚ → Double}

theorem edge_iff_props : g.Edge u v ↔ ∃ p, g.props u v = some p := by
  rw [Edge, StdMap.mem_iff_get]
  constructor
  · rintro ⟨x, hx⟩
    exact ⟨x.2, by rw [props, hx]; rfl⟩
  · rintro ⟨p, hp⟩
    obtain ⟨x, hx, -⟩ := Option.map_eq_some_iff.1 hp
    exact ⟨x, hx⟩

theorem props_eq_none_iff : g.props u v = none ↔ ¬ g.Edge u v := by
  rw [edge_iff_props, Option.eq_none_iff_forall_ne_some]
  push Not
  rfl

/-- The edges of the graph between two vertices, at most one. -/
theorem filter_edgesByEnds (g : NetGraph) (u v : NetVertex) :
    (g.edgesByEnds.filter fun x => x.1.src = u ∧ x.1.dst = v).map (·.2) = (g.props u v).toList := by
  have hkey : ∀ x : (NetVertex ×ₗ NetVertex) × Nat × EdgeProps,
      (ofLex x.1).1 = u ∧ (ofLex x.1).2 = v ↔ x.1 = toLex (u, v) := fun x =>
    Prod.mk_inj.symm.trans (toLex_inj (a := (ofLex x.1))).symm
  have hentry := StdMap.filter_toList g.edges (toLex (u, v))
  simp only [← hkey] at hentry
  rw [edgesByEnds, List.filter_map, List.map_map, props]
  simp only [Function.comp_def, hentry]
  cases g.edges[toLex (u, v)]? <;> rfl

/-! ## Merging one edge -/

/-- What an edge becomes when one more is merged into it. -/
def mergeProps (rnd : ℚ → Double) : Option EdgeProps → EdgeProps → EdgeProps
  | none, p => ⟨"", p.traffic, p.capacity⟩
  | some q, p => ⟨q.name, q.traffic.add rnd p.traffic, q.capacity.add rnd p.capacity⟩

/-- What an edge becomes when some edges are merged into it. -/
def mergeAll (rnd : ℚ → Double) (q : Option EdgeProps) (l : List EdgeProps) : Option EdgeProps :=
  l.foldl (fun q p => some (mergeProps rnd q p)) q

theorem mergeAll_concat (q : Option EdgeProps) (l : List EdgeProps) (p : Option EdgeProps) :
    mergeAll rnd q (l ++ p.toList) = mergeAll rnd (mergeAll rnd q l) p.toList := List.foldl_append

/-- Traffic and capacity are added up. -/
theorem mergeAll_eq_some {l : List EdgeProps} {q : EdgeProps}
    (h : mergeAll rnd none l = some q) : l ≠ [] ∧ q.traffic = Double.sum rnd (l.map (·.traffic)) ∧
      q.capacity = Double.sum rnd (l.map (·.capacity)) := by
  have hsome : ∀ (l : List EdgeProps) (p : EdgeProps), ∃ name, mergeAll rnd (some p) l =
      some ⟨name, (l.map (·.traffic)).foldl (Double.add rnd) p.traffic,
        (l.map (·.capacity)).foldl (Double.add rnd) p.capacity⟩ := by
    intro l
    induction l with
    | nil => exact fun p => ⟨p.name, rfl⟩
    | cons x l ih => exact fun p => ih _
  cases l with
  | nil => cases h
  | cons p l =>
    obtain ⟨name, hall⟩ := hsome l (mergeProps rnd none p)
    obtain rfl := Option.some.inj (hall.symm.trans h)
    exact ⟨List.cons_ne_nil _ _, rfl, rfl⟩

theorem mergeAll_eq_none_iff {l : List EdgeProps} : mergeAll rnd none l = none ↔ l = [] := by
  have hsome : ∀ (l : List EdgeProps) (p : EdgeProps), mergeAll rnd (some p) l ≠ none := by
    intro l
    induction l with
    | nil => exact fun p => Option.some_ne_none p
    | cons x l ih => exact fun p => ih _
  cases l with
  | nil => exact iff_of_true rfl rfl
  | cons p l => exact iff_of_false (hsome l _) (List.cons_ne_nil _ _)

theorem edges_putEdge (e : NetEdge) (p : EdgeProps) (a b : NetVertex) :
    (g.putEdge e p).edges[toLex (a, b)]? =
      if e.src = a ∧ e.dst = b then some (e.prop, p) else g.edges[toLex (a, b)]? := by
  rw [putEdge, StdMap.get_insert]
  simp only [toLex_inj, Prod.mk.injEq]

/-- One edge of the graph is written. -/
structure Wrote (g g' : NetGraph) (s d : NetVertex) (q : EdgeProps) : Prop where
  verts : g'.verts = g.verts
  here : g'.props s d = some q
  elsewhere : ∀ a b, ¬ (s = a ∧ d = b) → g'.edges[toLex (a, b)]? = g.edges[toLex (a, b)]?

theorem mergeEdge_wrote (rnd : ℚ → Double) (g : NetGraph) (s d : NetVertex) (p : EdgeProps) :
    Wrote g (NetState.mergeEdge rnd g s d p) s d (mergeProps rnd (g.props s d) p) := by
  cases hget : g.edges[toLex (s, d)]? with
  | none =>
    have hprops : g.props s d = none := by rw [props, hget]; rfl
    simp only [NetState.mergeEdge, addEdge, hget, hprops]
    refine ⟨rfl, ?_, fun a b hne => ?_⟩
    · rw [props, edges_putEdge, if_pos ⟨rfl, rfl⟩]
      rfl
    · rw [edges_putEdge, if_neg hne, StdMap.get_insert, if_neg]
      rwa [toLex_inj, Prod.mk.injEq]
  | some x =>
    obtain ⟨i, q⟩ := x
    have hprops : g.props s d = some q := by rw [props, hget]; rfl
    have hedge : g.edge? ⟨s, d, i⟩ = some q := NetState.edge?_eq_some.2 hget
    simp only [NetState.mergeEdge, addEdge, hget, hprops, hedge]
    refine ⟨rfl, ?_, fun a b hne => ?_⟩
    · rw [props, edges_putEdge, if_pos ⟨rfl, rfl⟩]
      rfl
    · rw [edges_putEdge, if_neg hne]

/-- Merging a list of edges: every edge of the graph takes those of the list with its ends. -/
theorem foldl_mergeEdge {X : Type} (rnd : ℚ → Double) (g : NetGraph) (src dst : X → NetVertex) (p : X → EdgeProps) (l : List X) :
    let g' := l.foldl (fun g x => NetState.mergeEdge rnd g (src x) (dst x) (p x)) g
    g'.verts = g.verts ∧
      (∀ a b, g'.props a b =
        mergeAll rnd (g.props a b) ((l.filter fun x => src x = a ∧ dst x = b).map p)) ∧
      ∀ a b, (∀ x ∈ l, ¬ (src x = a ∧ dst x = b)) →
        g'.edges[toLex (a, b)]? = g.edges[toLex (a, b)]? := by
  induction l generalizing g with
  | nil => exact ⟨rfl, fun _ _ => rfl, fun _ _ _ => rfl⟩
  | cons x l ih =>
    have hstep := mergeEdge_wrote rnd g (src x) (dst x) (p x)
    obtain ⟨hverts, hprops, hkept⟩ := ih (g := NetState.mergeEdge rnd g (src x) (dst x) (p x))
    refine ⟨hverts.trans hstep.verts, fun a b => ?_, fun a b hne => ?_⟩
    · refine (hprops a b).trans ?_
      by_cases hx : src x = a ∧ dst x = b
      · obtain ⟨rfl, rfl⟩ := hx
        rw [List.filter_cons_of_pos (by simp), hstep.here]
        rfl
      · rw [List.filter_cons_of_neg (by simpa using hx), props, hstep.elsewhere a b hx, ← props]
    · refine (hkept a b fun y hy => hne y (List.mem_cons_of_mem _ hy)).trans ?_
      exact hstep.elsewhere a b (hne x List.mem_cons_self)

/-! ## Copying the edges of a set -/

variable {V : StdSet NetVertex} {done : List NetVertex}

/-- Part of the set is copied: the edges at the new vertex are merged from those of the vertices done,
and all other edges are as before. -/
structure Copied (rnd : ℚ → Double) (V : StdSet NetVertex) (w : NetVertex) (g₀ : NetGraph)
    (done : List NetVertex) (g : NetGraph) : Prop where
  verts : g.verts = g₀.verts
  kept : ∀ a b, a ≠ w → b ≠ w → g.edges[toLex (a, b)]? = g₀.edges[toLex (a, b)]?
  into : ∀ u, g.props u w =
    if u ∈ V then none else mergeAll rnd none (done.filterMap (g₀.props u ·))
  from_ : ∀ u, g.props w u =
    if u ∈ V then none else mergeAll rnd none (done.filterMap (g₀.props · u))

/-- The new vertex has no edges. -/
def Isolated (g : NetGraph) (w : NetVertex) : Prop := ∀ u, g.props u w = none ∧ g.props w u = none

theorem copied_nil (rnd : ℚ → Double) (V : StdSet NetVertex) (hw : g.Isolated w) : Copied rnd V w g [] g where
  verts := rfl
  kept _ _ _ _ := rfl
  into u := by rw [(hw u).1]; split <;> rfl
  from_ u := by rw [(hw u).2]; split <;> rfl

theorem Isolated.merged {g₀ : NetGraph} (hw : g₀.Isolated w) (l : List NetVertex) :
    mergeAll rnd none (l.filterMap (g₀.props w ·)) = none ∧
      mergeAll rnd none (l.filterMap (g₀.props · w)) = none := by
  rw [mergeAll_eq_none_iff, mergeAll_eq_none_iff, List.filterMap_eq_nil_iff,
    List.filterMap_eq_nil_iff]
  exact ⟨fun u _ => (hw u).2, fun u _ => (hw u).1⟩

theorem filterMap_concat {A B : Type*} (f : A → Option B) (l : List A) (a : A) :
    (l ++ [a]).filterMap f = l.filterMap f ++ (f a).toList := by
  rw [List.filterMap_append]
  cases h : f a <;> simp [h]

/-- The incoming edges of `v` from outside the set. -/
theorem filter_into (g : NetGraph) (V : StdSet NetVertex) (v a : NetVertex) :
    ((g.edgesByEnds.filter fun x => x.1.dst = v ∧ x.1.src ∉ V).filter fun x =>
      x.1.src = a ∧ w = w).map (·.2) = if a ∈ V then [] else (g.props a v).toList := by
  rw [List.filter_filter]
  split
  · next ha =>
    rw [List.map_eq_nil_iff, List.filter_eq_nil_iff]
    rintro x - hx
    simp only [Bool.and_eq_true, decide_eq_true_eq] at hx
    exact hx.2.2 (hx.1.1 ▸ ha)
  · next ha =>
    rw [← filter_edgesByEnds]
    refine congrArg _ (List.filter_congr fun x _ => ?_)
    rw [← Bool.decide_and, decide_eq_decide]
    constructor
    · exact fun h => ⟨h.1.1, h.2.1⟩
    · exact fun h => ⟨⟨h.1, rfl⟩, h.2, h.1 ▸ ha⟩

theorem filter_from (g : NetGraph) (V : StdSet NetVertex) (v b : NetVertex) :
    ((g.edgesByEnds.filter fun x => x.1.src = v ∧ x.1.dst ∉ V).filter fun x =>
      w = w ∧ x.1.dst = b).map (·.2) = if b ∈ V then [] else (g.props v b).toList := by
  rw [List.filter_filter]
  split
  · next hb =>
    rw [List.map_eq_nil_iff, List.filter_eq_nil_iff]
    rintro x - hx
    simp only [Bool.and_eq_true, decide_eq_true_eq] at hx
    exact hx.2.2 (hx.1.2 ▸ hb)
  · next hb =>
    rw [← filter_edgesByEnds]
    refine congrArg _ (List.filter_congr fun x _ => ?_)
    rw [← Bool.decide_and, decide_eq_decide]
    constructor
    · exact fun h => ⟨h.2.1, h.1.2⟩
    · exact fun h => ⟨⟨rfl, h.2⟩, h.1, h.2 ▸ hb⟩

/-- One more vertex of the set is copied. -/
theorem Copied.copyEdges {g₀ : NetGraph} (h : Copied rnd V w g₀ done g) (hiso : g₀.Isolated w)
    (hv : v ∈ V) (hvw : v ≠ w) :
    Copied rnd V w g₀ (done ++ [v]) (NetState.copyEdges rnd V w g v) := by
  -- the edges at `v` are those of the old graph
  have hin : ∀ a, g.props a v = g₀.props a v := by
    intro a
    by_cases ha : a = w
    · rw [ha, h.from_, if_pos hv, (hiso v).2]
    · rw [props, h.kept a v ha hvw, props]
  have hout : ∀ b, g.props v b = g₀.props v b := by
    intro b
    by_cases hb : b = w
    · rw [hb, h.into, if_pos hv, (hiso v).1]
    · rw [props, h.kept v b hvw hb, props]
  obtain ⟨hverts, hprops, hkept⟩ := foldl_mergeEdge rnd g
    (fun x : NetEdge × EdgeProps => x.1.src) (fun _ => w) (·.2)
    (g.edgesByEnds.filter fun x => x.1.dst = v ∧ x.1.src ∉ V)
  rw [NetState.copyEdges]
  generalize (g.edgesByEnds.filter fun x => x.1.dst = v ∧ x.1.src ∉ V).foldl
    (fun g x => NetState.mergeEdge rnd g x.1.src w x.2) g = mid at hverts hprops hkept
  have hmid : ∀ a b, b ≠ w → mid.edges[toLex (a, b)]? = g.edges[toLex (a, b)]? := fun a b hb =>
    hkept a b fun _ _ hx => hb hx.2.symm
  have hmidw : ∀ a, mid.props a w =
      if a ∈ V then none else mergeAll rnd none ((done ++ [v]).filterMap (g₀.props a ·)) := by
    intro a
    rw [hprops a w, filter_into, h.into, hin, filterMap_concat]
    split
    · rfl
    · rw [mergeAll_concat]
  obtain ⟨hverts', hprops', hkept'⟩ := foldl_mergeEdge rnd mid
    (fun _ => w) (fun x : NetEdge × EdgeProps => x.1.dst) (·.2)
    (mid.edgesByEnds.filter fun x => x.1.src = v ∧ x.1.dst ∉ V)
  generalize (mid.edgesByEnds.filter fun x => x.1.src = v ∧ x.1.dst ∉ V).foldl
    (fun g x => NetState.mergeEdge rnd g w x.1.dst x.2) mid = g' at hverts' hprops' hkept'
  have hmidv : ∀ b, mid.props v b = g₀.props v b := by
    intro b
    by_cases hb : b = w
    · rw [hb, hmidw, if_pos hv, (hiso v).1]
    · rw [props, hmid v b hb, ← props, hout]
  have hlast : ∀ a b, a ≠ w → g'.edges[toLex (a, b)]? = mid.edges[toLex (a, b)]? := fun a b ha =>
    hkept' a b fun _ _ hx => ha hx.1.symm
  have hfrom : ∀ b, g'.props w b =
      if b ∈ V then none else mergeAll rnd none ((done ++ [v]).filterMap (g₀.props · b)) := by
    intro b
    rw [hprops' w b, filter_from, hmidv, filterMap_concat]
    by_cases hb : b = w
    · subst hb
      rw [hmidw, (hiso.merged _).1, ← filterMap_concat, (hiso.merged _).2, (hiso v).1]
      simp only [ite_self, Option.toList_none]
      rfl
    · rw [props, hmid w b hb, ← props, h.from_]
      split
      · rfl
      · rw [mergeAll_concat]
  refine ⟨hverts'.trans (hverts.trans h.verts), fun a b ha hb => ?_, fun a => ?_, hfrom⟩
  · rw [hlast a b ha, hmid a b hb, h.kept a b ha hb]
  · by_cases ha : a = w
    · subst ha
      rw [hfrom, (hiso.merged _).1, (hiso.merged _).2]
    · rw [props, hlast a w ha, ← props, hmidw]

theorem Copied.foldl {g₀ : NetGraph} (h : Copied rnd V w g₀ done g) (hiso : g₀.Isolated w)
    {vs : List NetVertex} (hvs : ∀ v ∈ vs, v ∈ V) (hw : w ∉ V) :
    Copied rnd V w g₀ (done ++ vs) (vs.foldl (NetState.copyEdges rnd V w) g) := by
  induction vs generalizing g done with
  | nil => rwa [List.append_nil]
  | cons v vs ih =>
    have hv := hvs v List.mem_cons_self
    have hstep := h.copyEdges hiso hv fun heq => hw (heq ▸ hv)
    rw [List.foldl_cons, List.append_cons]
    exact ih hstep fun u hu => hvs u (List.mem_cons_of_mem _ hu)

end NetGraph

namespace NetState

open NetGraph

variable {net net' : NetState} {V : StdSet NetVertex} {name : String} {v w : NetVertex}
  {rnd : ℚ → Double} {ops : List Op}

/-! ## Removing the set -/

theorem removeVertex_graph (h : net.removeVertex v = some net') :
    (∀ u, net'.graph.verts[u]? = if u = v then none else net.graph.verts[u]?) ∧
      ∀ a b, net'.graph.edges[toLex (a, b)]? =
        if a = v ∨ b = v then none else net.graph.edges[toLex (a, b)]? := by
  obtain ⟨p, -, rfl⟩ := Option.map_eq_some_iff.1 h
  refine ⟨fun u => ?_, fun a b => ?_⟩
  · simp only [NetGraph.removeVertex, StdMap.get_erase, eq_comm]
  · simp only [NetGraph.removeVertex, Std.ExtTreeMap.getElem?_filter', ofLex_toLex, ne_eq]
    split
    · next hab =>
      rw [Option.filter_eq_none_iff]
      exact fun _ _ hne => (of_decide_eq_true hne).elim fun ha hb => hab.elim ha hb
    · next hab =>
      rw [not_or] at hab
      exact Option.ext fun x => Option.filter_eq_some_iff.trans
        (and_iff_left (decide_eq_true hab))

theorem foldlM_removeVertex_graph {vs : List NetVertex}
    (h : vs.foldlM NetState.removeVertex net = some net') :
    (∀ u, net'.graph.verts[u]? = if u ∈ vs then none else net.graph.verts[u]?) ∧
      ∀ a b, net'.graph.edges[toLex (a, b)]? =
        if a ∈ vs ∨ b ∈ vs then none else net.graph.edges[toLex (a, b)]? := by
  induction vs generalizing net with
  | nil =>
    obtain rfl := Option.some.inj h
    exact ⟨fun _ => by simp, fun _ _ => by simp⟩
  | cons v vs ih =>
    rw [List.foldlM_cons] at h
    obtain ⟨mid, hmid, hrest⟩ := Option.bind_eq_some_iff.1 h
    obtain ⟨hverts, hedges⟩ := removeVertex_graph hmid
    obtain ⟨hverts', hedges'⟩ := ih hrest
    refine ⟨fun u => ?_, fun a b => ?_⟩
    · rw [hverts', hverts, ← ite_or]
      simp only [List.mem_cons, or_comm]
    · rw [hedges', hedges, ← ite_or]
      refine if_congr ?_ rfl rfl
      rw [List.mem_cons, List.mem_cons]
      tauto

/-! ## Merging a set of vertices -/

/-- `NetState::aggregate_node` without its fast path. -/
def mergeVertices (rnd : ℚ → Double) (net : NetState) (vertices : StdSet NetVertex)
    (name : String) : Option (Option NetVertex × NetState) :=
  match net.addNode name with
  | (none, net) => some (none, net)
  | (some v, net) =>
    if vertices.toList.all (· ∈ net.graph.verts) then
      (vertices.toList.foldlM removeVertex { net with
        graph := vertices.toList.foldl (copyEdges rnd vertices v) net.graph }).map fun net =>
          (some v, net)
    else none

theorem aggregateNode_eq_mergeVertices (hmany : ∀ v, V.toList ≠ [v]) :
    net.aggregateNode rnd V name = net.mergeVertices rnd V name := by
  rw [aggregateNode]
  split
  · next v heq => exact absurd heq (hmany v)
  · rfl

/-- The vertices of a set are merged into the vertex `w`. -/
structure Merged (rnd : ℚ → Double) (net net' : NetState) (V : StdSet NetVertex) (name : String)
    (w : NetVertex) : Prop where
  fresh : w ∉ net.graph.verts
  vertex : net'.graph.verts[w]? = some ⟨false, name, default⟩
  gone : ∀ v ∈ V, v ∉ net'.graph.verts
  kept : ∀ u, u ≠ w → u ∉ V → net'.graph.verts[u]? = net.graph.verts[u]?
  ends : ∀ a b, net'.graph.Edge a b → a ∉ V ∧ b ∉ V
  keptEdge : ∀ a b, a ≠ w → b ≠ w → a ∉ V → b ∉ V →
    net'.graph.edges[toLex (a, b)]? = net.graph.edges[toLex (a, b)]?
  into : ∀ u, u ≠ w → u ∉ V →
    net'.graph.props u w = mergeAll rnd none (V.toList.filterMap (net.graph.props u ·))
  from_ : ∀ u, u ≠ w → u ∉ V →
    net'.graph.props w u = mergeAll rnd none (V.toList.filterMap (net.graph.props · u))
  loop : ¬ net'.graph.Edge w w

theorem isolated_of_closed {g : NetGraph} (hclosed : g.Closed) (hw : w ∉ g.verts) : g.Isolated w :=
  fun u => ⟨props_eq_none_iff.2 fun h => hw (hclosed.ends u w h).2,
    props_eq_none_iff.2 fun h => hw (hclosed.ends w u h).1⟩

/-- The general code merges any set under a new name. -/
theorem mergeVertices_merged (rnd : ℚ → Double) (hclosed : net.graph.Closed)
    (hsub : ∀ v ∈ V, v ∈ net.graph.verts) (hname : net.getNode name = none) :
    ∃ net', net.mergeVertices rnd V name = some (some net.graph.next, net') ∧
      Merged rnd net net' V name net.graph.next := by
  have hmem : ∀ v, v ∈ V.toList ↔ v ∈ V := fun v => Std.ExtTreeSet.mem_toList
  have hw : net.graph.next ∉ net.graph.verts := fun h => Nat.lt_irrefl _ (hclosed.fresh _ h)
  have hwV : net.graph.next ∉ V := fun h => hw (hsub _ h)
  have hadd : net.addNode name = (some net.graph.next, { net with
      graph := (net.graph.addVertex name).2
      nameVertMap := net.nameVertMap.insertIfNew name net.graph.next }) := by
    rw [addNode, hname]
    rfl
  have hmid := closed_addNode hclosed name
  rw [hadd] at hmid
  have hverts : ∀ u, (net.graph.addVertex name).2.verts[u]? =
      if net.graph.next = u then some ⟨false, name, default⟩ else net.graph.verts[u]? := fun u => by
    rw [addVertex, StdMap.get_insert]
  have hin : ∀ u, u ∈ net.graph.verts → u ∈ (net.graph.addVertex name).2.verts := fun u hu => by
    rw [addVertex, Std.ExtTreeMap.mem_insert]
    exact .inr hu
  have hw' : net.graph.next ∈ (net.graph.addVertex name).2.verts := by
    rw [addVertex, Std.ExtTreeMap.mem_insert]
    exact .inl (compare_eq_iff_eq.2 rfl)
  -- the edges of the set are copied to the new vertex
  have hiso₀ : net.graph.Isolated net.graph.next := isolated_of_closed hclosed hw
  have hiso : (net.graph.addVertex name).2.Isolated net.graph.next := hiso₀
  have hcopied := (copied_nil rnd V hiso).foldl hiso
    (fun v hv => (hmem v).1 hv) hwV
  have hext := hmid.foldl_copyEdges rnd V hw' V.toList
  -- the set is removed
  obtain ⟨net', hrun, -⟩ := @foldlM_removeVertex { net with
      graph := V.toList.foldl (NetState.copyEdges rnd V net.graph.next)
        (net.graph.addVertex name).2
      nameVertMap := net.nameVertMap.insertIfNew name net.graph.next } _
    (hmid.extends hext) (StdSet.nodup_toList V)
    fun v hv => by
      rw [hext.verts]
      exact hin v (hsub v ((hmem v).1 hv))
  obtain ⟨hverts', hedges'⟩ := foldlM_removeVertex_graph hrun
  simp only [hmem, hcopied.verts, hverts] at hverts'
  simp only [hmem] at hedges'
  have hprops : ∀ a b, a ∉ V → b ∉ V → net'.graph.props a b =
      (V.toList.foldl (NetState.copyEdges rnd V net.graph.next)
        (net.graph.addVertex name).2).props a b := fun a b ha hb => by
    rw [props, hedges', if_neg (not_or.2 ⟨ha, hb⟩), props]
  refine ⟨net', ?_, hw, ?_, fun v hv => ?_, fun u hu huV => ?_, fun a b he => ?_,
    fun a b ha hb haV hbV => ?_, fun u _ huV => ?_, fun u _ huV => ?_, ?_⟩
  · rw [mergeVertices, hadd]
    simp only
    rw [if_pos, hrun]
    · rfl
    · simpa [hmem] using fun v hv => hin v (hsub v hv)
  · rw [hverts', if_neg hwV, if_pos rfl]
  · rw [StdMap.mem_iff_get, hverts', if_pos hv]
    simp
  · rw [hverts', if_neg huV, if_neg (Ne.symm hu)]
  · by_contra hab
    obtain ⟨x, hx⟩ := StdMap.mem_iff_get.1 he
    rw [hedges', if_pos (by tauto)] at hx
    cases hx
  · rw [hedges', if_neg (not_or.2 ⟨haV, hbV⟩), hcopied.kept a b ha hb]
    rfl
  · rw [hprops u _ huV hwV, hcopied.into, if_neg huV]
    rfl
  · rw [hprops _ u hwV huV, hcopied.from_, if_neg huV]
    rfl
  · rw [← props_eq_none_iff, hprops _ _ hwV hwV, hcopied.into, if_neg hwV]
    exact (hiso.merged _).1

/-- The edge `q` has the summed traffic and the summed capacity of the edges `l`. -/
def SumsUp (rnd : ℚ → Double) (q : EdgeProps) (l : List EdgeProps) : Prop :=
  q.traffic = Double.sum rnd (l.map (·.traffic)) ∧
    q.capacity = Double.sum rnd (l.map (·.capacity))

/-- `w`, which has the name, takes the place of the vertices `V`: their edges from and to other vertices
are edges of `w`, with the sums of the properties, and nothing else changes. -/
structure MergedExactly (rnd : ℚ → Double) (net net' : NetState) (V : StdSet NetVertex)
    (name : String) (w : NetVertex) : Prop where
  fresh : w ∉ net.graph.verts
  vertex : net'.graph.verts[w]? = some ⟨false, name, default⟩
  verts : ∀ u, u ∈ net'.graph.verts ↔ u = w ∨ u ∈ net.graph.verts ∧ u ∉ V
  kept : ∀ u ∈ net.graph.verts, u ∉ V → net'.graph.verts[u]? = net.graph.verts[u]?
  into : ∀ u ∈ net.graph.verts, u ∉ V → (net'.graph.Edge u w ↔ ∃ v ∈ V, net.graph.Edge u v)
  intoSum : ∀ u ∈ net.graph.verts, u ∉ V → ∀ q, net'.graph.props u w = some q →
    SumsUp rnd q (V.toList.filterMap fun v => net.graph.props u v)
  outOf : ∀ u ∈ net.graph.verts, u ∉ V → (net'.graph.Edge w u ↔ ∃ v ∈ V, net.graph.Edge v u)
  outOfSum : ∀ u ∈ net.graph.verts, u ∉ V → ∀ q, net'.graph.props w u = some q →
    SumsUp rnd q (V.toList.filterMap fun v => net.graph.props v u)
  edges : ∀ a b, net'.graph.Edge a b →
    (a = w ∨ a ∈ net.graph.verts ∧ a ∉ V) ∧ (b = w ∨ b ∈ net.graph.verts ∧ b ∉ V)
  keptEdge : ∀ a ∈ net.graph.verts, ∀ b ∈ net.graph.verts, a ∉ V → b ∉ V →
    net'.graph.edges[toLex (a, b)]? = net.graph.edges[toLex (a, b)]?
  loop : ¬ net'.graph.Edge w w

/-- An edge of the new vertex is there if one of the set is there. -/
theorem edge_of_mergeAll {g : NetGraph} {a b : NetVertex} {f : NetVertex → Option EdgeProps}
    (h : g.props a b = mergeAll rnd none (V.toList.filterMap f)) :
    g.Edge a b ↔ ∃ v ∈ V, ∃ p, f v = some p := by
  rw [← not_iff_not, ← props_eq_none_iff, h, mergeAll_eq_none_iff, List.filterMap_eq_nil_iff]
  push Not
  simp only [Std.ExtTreeSet.mem_toList, ne_eq, ← Option.eq_none_iff_forall_ne_some]

theorem Merged.exactly (h : Merged rnd net net' V name w) (hclosed : net'.graph.Closed) :
    MergedExactly rnd net net' V name w := by
  have hne : ∀ u ∈ net.graph.verts, u ≠ w := fun u hu heq => h.fresh (heq ▸ hu)
  have hverts : ∀ u, u ∈ net'.graph.verts ↔ u = w ∨ u ∈ net.graph.verts ∧ u ∉ V := by
    intro u
    by_cases hu : u = w
    · subst hu
      exact iff_of_true (StdMap.mem_iff_get.2 ⟨_, h.vertex⟩) (.inl rfl)
    · by_cases huV : u ∈ V
      · exact iff_of_false (h.gone u huV) (by tauto)
      · rw [StdMap.mem_iff_get, h.kept u hu huV, ← StdMap.mem_iff_get]
        tauto
  refine ⟨h.fresh, h.vertex, hverts, fun u hu huV => h.kept u (hne u hu) huV, fun u hu huV => ?_,
    fun u hu huV q hq => ?_, fun u hu huV => ?_, fun u hu huV q hq => ?_, fun a b he => ?_,
    fun a ha b hb haV hbV => h.keptEdge a b (hne a ha) (hne b hb) haV hbV, h.loop⟩
  · rw [edge_of_mergeAll (h.into u (hne u hu) huV)]
    simp only [edge_iff_props]
  · rw [h.into u (hne u hu) huV] at hq
    exact (mergeAll_eq_some hq).2
  · rw [edge_of_mergeAll (h.from_ u (hne u hu) huV)]
    simp only [edge_iff_props]
  · rw [h.from_ u (hne u hu) huV] at hq
    exact (mergeAll_eq_some hq).2
  · obtain ⟨ha, hb⟩ := hclosed.ends a b he
    exact ⟨(hverts a).1 ha, (hverts b).1 hb⟩

/-- Aggregating at least two vertices of a reachable network state under a name that is free: the set
is replaced by one vertex, which takes over its edges with their sums. -/
theorem aggregateNode_merges (hnet : Run (step rnd) (fun _ _ => True) empty ops net)
    (hsub : ∀ v ∈ V, v ∈ net.graph.verts) (hmany : 2 ≤ V.size)
    (hname : net.getNode name = none) :
    ∃ w net', net.aggregateNode rnd V name = some (some w, net') ∧
      MergedExactly rnd net net' V name w := by
  have hclosed := closed_of_run hnet
  have hlist : ∀ v, V.toList ≠ [v] := fun v heq => by
    rw [← Std.ExtTreeSet.length_toList, heq, List.length_singleton] at hmany
    exact absurd hmany (by decide)
  obtain ⟨net', hrun, hmerged⟩ := mergeVertices_merged rnd hclosed hsub hname
  rw [← aggregateNode_eq_mergeVertices hlist] at hrun
  exact ⟨_, net', hrun, hmerged.exactly (closed_aggregateNode hclosed rnd hrun)⟩

/-- One node with links to two others. -/
def forkOps : List Op :=
  [.addNode "a", .addNode "b", .addNode "c", .addEdge 2 0, .addEdge 2 1]

theorem aggregateNode_merges_fork :
    ∃ net, Run (step .fin) (fun _ _ => True) empty forkOps net ∧
      ∃ w net', net.aggregateNode .fin ((∅ : StdSet NetVertex).insert 0 |>.insert 1) "d" =
          some (some w, net') ∧
        MergedExactly .fin net net' ((∅ : StdSet NetVertex).insert 0 |>.insert 1) "d" w := by
  have hr : Run (step .fin) (fun _ _ => True) empty forkOps _ :=
    .cons trivial rfl (.cons trivial rfl (.cons trivial rfl (.cons trivial rfl
      (.cons trivial rfl (.nil _)))))
  refine ⟨_, hr, aggregateNode_merges hr (fun v hv => ?_) (by decide) (by decide)⟩
  rw [StdSet.mem_insert, StdSet.mem_insert] at hv
  rcases hv with rfl | rfl | hv
  · decide
  · decide
  · exact absurd hv Std.ExtTreeSet.not_mem_empty

end NetState

end Alto
