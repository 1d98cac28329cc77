import Alto.Lib.Run
import Alto.Server.NetState

/-!
# The name indexes of the network state

`Inv` says that the two name maps are exact: the vertex map is a bijection between names and
vertices, every named edge is found under its name, and no entry of the edge map is stale. Removing
an edge, explicitly or with one of its ends, does not touch the edge map, and renaming does not
check for the new name, so `Inv` is kept exactly by the operations that avoid both (`Op.Free`).
-/

namespace Alto.NetState

open Lib

/-! ## Edges of the graph -/

theorem edge?_eq_some {g : NetGraph} {e : NetEdge} {p : EdgeProps} :
    g.edge? e = some p ↔ g.edges[toLex (e.src, e.dst)]? = some (e.prop, p) := by
  unfold NetGraph.edge?
  cases h : g.edges[toLex (e.src, e.dst)]? with
  | none => simp
  | some x =>
    obtain ⟨prop, props⟩ := x
    simp only [Option.some.injEq, Prod.mk.injEq]
    by_cases hp : prop = e.prop
    · simp [hp]
    · simp [hp]

/-- A descriptor in the graph is determined by its two ends. -/
theorem edge_inj {g : NetGraph} {e e' : NetEdge} {p p' : EdgeProps} (h : g.edge? e = some p)
    (h' : g.edge? e' = some p') (hs : e.src = e'.src) (hd : e.dst = e'.dst) : e = e' := by
  rw [edge?_eq_some] at h h'
  rw [hs, hd, h', Option.some.injEq, Prod.mk.injEq] at h
  obtain ⟨s, d, i⟩ := e
  obtain ⟨s', d', i'⟩ := e'
  simp_all

theorem toLex_pair_eq {a b c d : Nat} : toLex (a, b) = toLex (c, d) ↔ a = c ∧ b = d := by
  rw [EmbeddingLike.apply_eq_iff_eq, Prod.mk.injEq]

theorem edge?_putEdge {g : NetGraph} {e : NetEdge} {p : EdgeProps} (h : g.edge? e = some p)
    (q : EdgeProps) (e' : NetEdge) :
    (g.putEdge e q).edge? e' = if e' = e then some q else g.edge? e' := by
  refine Option.ext fun p' => ?_
  rw [edge?_eq_some, NetGraph.putEdge, StdMap.get_insert]
  by_cases hk : toLex (e.src, e.dst) = toLex (e'.src, e'.dst)
  · rw [if_pos hk]
    obtain ⟨hs, hd⟩ := toLex_pair_eq.1 hk
    by_cases he : e' = e
    · simp [he]
    · rw [if_neg he]
      refine iff_of_false (fun heq => he ?_) (fun h' => he (edge_inj h' h hs.symm hd.symm))
      have hp := (Prod.mk.inj (Option.some.inj heq)).1
      obtain ⟨s, d, i⟩ := e
      obtain ⟨s', d', i'⟩ := e'
      simp_all
  · have he : e' ≠ e := by
      rintro rfl
      exact hk rfl
    rw [if_neg hk, if_neg he, ← edge?_eq_some]

theorem edge?_insert_new {g : NetGraph} {src dst : NetVertex} {i n : Nat} {q : EdgeProps}
    (h : g.edges[toLex (src, dst)]? = none) (e' : NetEdge) :
    NetGraph.edge? { g with edges := g.edges.insert (toLex (src, dst)) (i, q), next := n } e' =
      if e' = ⟨src, dst, i⟩ then some q else g.edge? e' := by
  refine Option.ext fun p' => ?_
  rw [edge?_eq_some, StdMap.get_insert]
  by_cases hk : toLex (src, dst) = toLex (e'.src, e'.dst)
  · obtain ⟨hs, hd⟩ := toLex_pair_eq.1 hk
    have hnone : g.edge? e' = none := by
      refine Option.eq_none_iff_forall_ne_some.2 fun x hx => ?_
      rw [edge?_eq_some, ← hk, h] at hx
      cases hx
    rw [if_pos hk, hnone]
    obtain ⟨s', d', i'⟩ := e'
    simp only at hs hd
    subst hs hd
    by_cases hi : i' = i
    · simp [hi]
    · simp [hi, Ne.symm hi]
  · have hne : e' ≠ ⟨src, dst, i⟩ := by
      rintro rfl
      exact hk rfl
    rw [if_neg hk, if_neg hne, ← edge?_eq_some]

/-! ## The invariant -/

/-- The name maps are exact, and vertex descriptors are handed out once. -/
structure Inv (net : NetState) : Prop where
  vert : ∀ n v, net.nameVertMap[n]? = some v ↔ net.graph.vertexName v = some n
  named : ∀ n e, net.graph.edgeName e = some n → n ≠ "" → net.nameEdgeMap[n]? = some e
  entry : ∀ n e, net.nameEdgeMap[n]? = some e → net.graph.edgeName e = some n
  fresh : ∀ v, v ∈ net.graph.verts → v < net.graph.next

theorem inv_empty : Inv empty := by
  constructor <;>
    simp [empty, NetGraph.empty, NetGraph.edgeName, NetGraph.edge?, NetGraph.vertexName]

theorem mem_verts_iff {g : NetGraph} {v : NetVertex} : v ∈ g.verts ↔ ∃ n, g.vertexName v = some n := by
  simp [StdMap.mem_iff_get, NetGraph.vertexName]

section

variable {net : NetState}

/-- A change of the graph that keeps the vertices and the names of all edges, and adds no named
edge, keeps the invariant. -/
theorem Inv.graph_congr (h : Inv net) {g : NetGraph}
    (hv : ∀ v, g.vertexName v = net.graph.vertexName v)
    (hold : ∀ e n, net.graph.edgeName e = some n → g.edgeName e = some n)
    (hnew : ∀ e n, g.edgeName e = some n → n = "" ∨ net.graph.edgeName e = some n)
    (hnext : net.graph.next ≤ g.next) : Inv { net with graph := g } where
  vert n v := by
    simp only [hv]
    exact h.vert n v
  named n e hn hne := by
    rcases hnew e n hn with h0 | h0
    · exact absurd h0 hne
    · exact h.named n e h0 hne
  entry n e he := hold e n (h.entry n e he)
  fresh v hmem := by
    rw [mem_verts_iff] at hmem
    simp only [hv] at hmem
    exact Nat.lt_of_lt_of_le (h.fresh v (mem_verts_iff.2 hmem)) hnext

theorem Inv.addNode (h : Inv net) (name : String) : Inv (net.addNode name).2 := by
  unfold NetState.addNode
  cases hn : net.getNode name with
  | some v => exact h
  | none =>
    have hnew : net.graph.vertexName net.graph.next = none := by
      cases hp : net.graph.vertexName net.graph.next with
      | none => rfl
      | some n => exact absurd (h.fresh _ (mem_verts_iff.2 ⟨n, hp⟩)) (Nat.lt_irrefl _)
    have hname : net.nameVertMap[name]? = none := hn
    -- the graph has one vertex more
    have hvert : ∀ v, (net.graph.addVertex name).2.vertexName v =
        if v = net.graph.next then some name else net.graph.vertexName v := by
      intro v
      simp only [NetGraph.vertexName, NetGraph.addVertex, StdMap.get_insert]
      by_cases hv : v = net.graph.next
      · simp [hv]
      · simp [hv, Ne.symm hv]
    refine ⟨fun n v => ?_, h.named, h.entry, fun v hv => ?_⟩
    · simp only [hvert, StdMap.get_insertIfNew, hname, and_true]
      change (if name = n then some net.graph.next else net.nameVertMap[n]?) = some v ↔ _
      by_cases hnn : name = n
      · subst hnn
        by_cases hv : v = net.graph.next
        · simp [hv]
        · have := h.vert name v
          rw [hname] at this
          simpa [hv, Ne.symm hv] using this
      · by_cases hv : v = net.graph.next
        · subst hv
          rw [if_neg hnn, h.vert, hnew]
          simp [hnn]
        · rw [if_neg hnn, if_neg hv]
          exact h.vert n v
    · rw [mem_verts_iff] at hv
      obtain ⟨n, hn⟩ := hv
      change v < net.graph.next + 1
      rw [hvert] at hn
      split at hn
      · next hv =>
        rw [hv]
        exact Nat.lt_succ_self _
      · exact Nat.lt_succ_of_lt (h.fresh v (mem_verts_iff.2 ⟨n, hn⟩))

/-! ## Edges -/

theorem edgeName_putEdge {g : NetGraph} {e : NetEdge} {p : EdgeProps} (h : g.edge? e = some p)
    (q : EdgeProps) (e' : NetEdge) :
    (g.putEdge e q).edgeName e' = if e' = e then some q.name else g.edgeName e' := by
  unfold NetGraph.edgeName
  rw [edge?_putEdge h]
  split <;> rfl

/-- Changing the traffic or the capacity of an edge. -/
theorem Inv.putEdge (h : Inv net) {e : NetEdge} {p : EdgeProps} (hp : net.graph.edge? e = some p)
    {q : EdgeProps} (hq : q.name = p.name) :
    Inv { net with graph := net.graph.putEdge e q } := by
  have hname : ∀ e', (net.graph.putEdge e q).edgeName e' = net.graph.edgeName e' := by
    intro e'
    rw [edgeName_putEdge hp]
    split
    · next he => simp [he, NetGraph.edgeName, hp, hq]
    · rfl
  refine h.graph_congr (fun _ => rfl) ?_ ?_ (Nat.le_refl _)
  · intro e' n hn
    rwa [hname]
  · intro e' n hn
    rw [hname] at hn
    exact Or.inr hn

/-- A new edge has no name. -/
theorem Inv.insertEdge (h : Inv net) {src dst : NetVertex} {q : EdgeProps} (hq : q.name = "")
    (hnew : net.graph.edges[toLex (src, dst)]? = none) :
    Inv { net with graph := { net.graph with
      edges := net.graph.edges.insert (toLex (src, dst)) (net.graph.next, q)
      next := net.graph.next + 1 } } := by
  refine h.graph_congr (fun _ => rfl) ?_ ?_ (Nat.le_succ _)
  · intro e n hn
    unfold NetGraph.edgeName at hn ⊢
    rw [edge?_insert_new hnew]
    split
    · next he =>
      obtain ⟨p, hp, -⟩ := Option.map_eq_some_iff.1 hn
      rw [edge?_eq_some, he, hnew] at hp
      cases hp
    · exact hn
  · intro e n hn
    unfold NetGraph.edgeName at hn ⊢
    rw [edge?_insert_new hnew] at hn
    split at hn
    · exact Or.inl (hq ▸ (Option.some.inj hn).symm)
    · exact Or.inr hn

theorem addEdge_of_new {g : NetGraph} {src dst : NetVertex}
    (hnew : g.edges[toLex (src, dst)]? = none) (q : EdgeProps) :
    (g.addEdge src dst).2.1 = true ∧
      (g.addEdge src dst).2.2.putEdge (g.addEdge src dst).1 q =
        { g with edges := g.edges.insert (toLex (src, dst)) (g.next, q), next := g.next + 1 } := by
  simp only [NetGraph.addEdge, hnew, NetGraph.putEdge, true_and, NetGraph.mk.injEq, and_true]
  refine StdMap.ext_get fun k => ?_
  simp only [StdMap.get_insert]
  split <;> rfl

theorem Inv.addEdge (h : Inv net) {src dst : NetVertex} {res : Option NetEdge × NetState}
    (hr : net.addEdge src dst = some res) : Inv res.2 := by
  simp only [NetState.addEdge] at hr
  split at hr
  · cases hnew : net.graph.edges[toLex (src, dst)]? with
    | some x =>
      simp only [NetGraph.addEdge, hnew, Option.some.injEq] at hr
      rw [← hr]
      exact h
    | none =>
      obtain ⟨hb, hput⟩ := addEdge_of_new hnew ⟨"", 0, 1⟩
      split at hr
      · next e g heq =>
        rw [heq] at hb
        cases hb
      · next e g heq =>
        rw [heq] at hput
        simp only at hput
        cases hr
        simp only [hput]
        exact h.insertEdge rfl hnew
  · cases hr

theorem Inv.mergeEdge (h : Inv net) (rnd : ℚ → Double) (src dst : NetVertex) (p : EdgeProps) :
    Inv { net with graph := mergeEdge rnd net.graph src dst p } := by
  unfold NetState.mergeEdge
  cases hnew : net.graph.edges[toLex (src, dst)]? with
  | some x =>
    simp only [NetGraph.addEdge, hnew]
    split
    · next q hq => exact h.putEdge hq rfl
    · exact h
  | none =>
    obtain ⟨hb, hput⟩ := addEdge_of_new hnew ⟨"", p.traffic, p.capacity⟩
    split
    · next e g heq =>
      rw [heq] at hput
      simp only at hput
      rw [hput]
      exact h.insertEdge rfl hnew
    · next e g heq =>
      rw [heq] at hb
      cases hb

/-! ## Names -/

theorem Inv.setVertexName (h : Inv net) {v : NetVertex} {value : String}
    (hfree : ∀ v', net.nameVertMap[value]? = some v' → v' = v) {net' : NetState}
    (hr : net.setVertexName v value = some net') : Inv net' := by
  obtain ⟨p, hp, rfl⟩ := Option.map_eq_some_iff.1 hr
  have hvert : ∀ u, NetGraph.vertexName { net.graph with
      verts := net.graph.verts.insert v { p with name := value } } u =
      if u = v then some value else net.graph.vertexName u := by
    intro u
    simp only [NetGraph.vertexName, StdMap.get_insert]
    by_cases hu : u = v
    · simp [hu]
    · simp [hu, Ne.symm hu]
  have hpv : net.graph.vertexName v = some p.name := by simp [NetGraph.vertexName, hp]
  have hmap : net.nameVertMap[p.name]? = some v := (h.vert _ _).2 hpv
  refine ⟨fun n u => ?_, h.named, h.entry, fun u hu => ?_⟩
  · simp only [hvert, StdMap.get_insertIfNew, StdMap.get_erase]
    by_cases hu : u = v
    · subst hu
      simp only [↓reduceIte, Option.some.injEq]
      have hnv := h.vert n u
      rw [hpv] at hnv
      by_cases hval : value = n
      · subst hval
        by_cases hpn : p.name = value
        · simp [hpn]
        · cases hc : net.nameVertMap[value]? with
          | none => simp [hpn]
          | some w => simp [hpn, hfree w hc]
      · by_cases hpn : p.name = n
        · simp [hpn, hval]
        · simp only [Option.some.injEq, hpn, iff_false] at hnv
          simp [hpn, hval, hnv]
    · rw [if_neg hu, ← h.vert n u]
      by_cases hpn : p.name = n
      · subst hpn
        rw [hmap]
        simp [Ne.symm hu]
      · by_cases hval : value = n
        · subst hval
          cases hc : net.nameVertMap[value]? with
          | none => simp [hpn, Ne.symm hu]
          | some w => simp [hpn]
        · simp [hpn, hval]
  · rw [mem_verts_iff] at hu
    obtain ⟨n, hn⟩ := hu
    rw [hvert] at hn
    split at hn
    · next huv =>
      rw [huv]
      exact h.fresh v (mem_verts_iff.2 ⟨_, hpv⟩)
    · exact h.fresh u (mem_verts_iff.2 ⟨n, hn⟩)

theorem Inv.setEdgeName (h : Inv net) {e : NetEdge} {value : String}
    (hfree : value = "" ∨ ∀ e', net.nameEdgeMap[value]? = some e' → e' = e) {net' : NetState}
    (hr : net.setEdgeName e value = some net') : Inv net' := by
  obtain ⟨p, hp, rfl⟩ := Option.map_eq_some_iff.1 hr
  have hpe : net.graph.edgeName e = some p.name := by simp [NetGraph.edgeName, hp]
  have hname := edgeName_putEdge hp { p with name := value }
  refine ⟨h.vert, fun n x hn hne => ?_, fun n x hx => ?_, h.fresh⟩
  · simp only [hname] at hn
    simp only [StdMap.get_insertIfNew, StdMap.get_erase]
    split at hn
    · next hxe =>
      subst hxe
      obtain rfl := Option.some.inj hn
      by_cases hpn : p.name = value
      · simp [hpn]
      · cases hc : net.nameEdgeMap[value]? with
        | none => simp [hpn]
        | some w =>
          have := (hfree.resolve_left hne) w hc
          simp [hpn, this]
    · next hxe =>
      have hget := h.named n x hn hne
      have hpn : p.name ≠ n := by
        rintro rfl
        have := h.named p.name e hpe hne
        rw [hget] at this
        exact hxe (Option.some.inj this)
      by_cases hval : value = n
      · subst hval
        simp [hpn, hget]
      · simp [hpn, hval, hget]
  · simp only [StdMap.get_erase_insertIfNew] at hx
    simp only [hname]
    by_cases hval : value = n ∧ (p.name = n ∨ net.nameEdgeMap[n]? = none)
    · rw [if_pos hval] at hx
      obtain rfl := Option.some.inj hx
      simp [hval.1]
    · rw [if_neg hval] at hx
      by_cases hpn : p.name = n
      · rw [if_pos hpn] at hx
        cases hx
      · rw [if_neg hpn] at hx
        have hn := h.entry n x hx
        have hxe : x ≠ e := by
          rintro rfl
          rw [hpe] at hn
          exact hpn (Option.some.inj hn)
        rw [if_neg hxe]
        exact hn

/-! ## Removal -/

theorem Inv.removeVertex (h : Inv net) {v : NetVertex}
    (hfree : ∀ (n : String) (e : NetEdge), net.nameEdgeMap[n]? = some e → e.src ≠ v ∧ e.dst ≠ v)
    {net' : NetState}
    (hr : net.removeVertex v = some net') : Inv net' := by
  obtain ⟨p, hp, rfl⟩ := Option.map_eq_some_iff.1 hr
  have hvert : ∀ u, (net.graph.removeVertex v).vertexName u =
      if u = v then none else net.graph.vertexName u := by
    intro u
    simp only [NetGraph.vertexName, NetGraph.removeVertex, StdMap.get_erase]
    by_cases hu : u = v
    · simp [hu]
    · simp [hu, Ne.symm hu]
  have hedge : ∀ e n, (net.graph.removeVertex v).edgeName e = some n ↔
      net.graph.edgeName e = some n ∧ e.src ≠ v ∧ e.dst ≠ v := by
    intro e n
    simp only [NetGraph.edgeName, Option.map_eq_some_iff, edge?_eq_some, NetGraph.removeVertex,
      Std.ExtTreeMap.getElem?_filter', Option.filter_eq_some_iff]
    simp only [ofLex_toLex, ne_eq]
    grind
  have hpv : net.graph.vertexName v = some p.name := by simp [NetGraph.vertexName, hp]
  refine ⟨fun n u => ?_, fun n e hn => ?_, fun n e he => ?_, fun u hu => ?_⟩
  · simp only [hvert, StdMap.get_erase]
    have hv := h.vert n u
    by_cases hu : u = v
    · subst hu
      rw [hpv, Option.some.injEq] at hv
      by_cases hpn : p.name = n
      · simp [hpn]
      · simpa [hpn] using hv
    · rw [if_neg hu]
      by_cases hpn : p.name = n
      · subst hpn
        have hmap := (h.vert p.name v).2 hpv
        rw [← hv, hmap]
        simp [Ne.symm hu]
      · simpa [hpn] using hv
  · exact h.named n e ((hedge e n).1 hn).1
  · exact (hedge e n).2 ⟨h.entry n e he, hfree n e he⟩
  · rw [mem_verts_iff] at hu
    obtain ⟨n, hn⟩ := hu
    simp only [hvert] at hn
    split at hn
    · cases hn
    · exact h.fresh u (mem_verts_iff.2 ⟨n, hn⟩)

theorem Inv.removeEdge (h : Inv net) {e : NetEdge}
    (hfree : ∀ n : String, net.nameEdgeMap[n]? ≠ some e) {net' : NetState}
    (hr : net.removeEdge e = some net') : Inv net' := by
  obtain ⟨p, hp, rfl⟩ := Option.map_eq_some_iff.1 hr
  have hedge : ∀ x n, (net.graph.removeEdge e).edgeName x = some n ↔
      x ≠ e ∧ net.graph.edgeName x = some n := by
    intro x n
    simp only [NetGraph.edgeName, Option.map_eq_some_iff, edge?_eq_some, NetGraph.removeEdge,
      StdMap.get_erase]
    by_cases hk : toLex (e.src, e.dst) = toLex (x.src, x.dst)
    · obtain ⟨hs, hd⟩ := toLex_pair_eq.1 hk
      refine iff_of_false (by simp [hk]) ?_
      rintro ⟨hne, q, hq, -⟩
      exact hne (edge_inj (edge?_eq_some.2 hq) hp hs.symm hd.symm)
    · have hne : x ≠ e := by
        rintro rfl
        exact hk rfl
      simp [hk, hne]
  refine ⟨h.vert, fun n x hn => h.named n x ((hedge x n).1 hn).2, fun n x hx => ?_, h.fresh⟩
  refine (hedge x n).2 ⟨?_, h.entry n x hx⟩
  rintro rfl
  exact hfree n hx

/-! ## Aggregation -/

theorem Inv.foldl_mergeEdge (h : Inv net) (rnd : ℚ → Double) {X : Type} (l : List X)
    (src dst : X → NetVertex) (props : X → EdgeProps) :
    Inv { net with
      graph := l.foldl (fun g x => NetState.mergeEdge rnd g (src x) (dst x) (props x)) net.graph } := by
  induction l generalizing net with
  | nil => exact h
  | cons x l ih => exact ih (h.mergeEdge rnd (src x) (dst x) (props x))

theorem Inv.copyEdges (h : Inv net) (rnd : ℚ → Double) (vertices : StdSet NetVertex)
    (agg v : NetVertex) :
    Inv { net with graph := NetState.copyEdges rnd vertices agg net.graph v } :=
  (h.foldl_mergeEdge rnd _ _ _ _).foldl_mergeEdge rnd _ _ _ _

theorem Inv.foldl_copyEdges (h : Inv net) (rnd : ℚ → Double) (vertices : StdSet NetVertex)
    (agg : NetVertex) (vs : List NetVertex) :
    Inv { net with graph := vs.foldl (NetState.copyEdges rnd vertices agg) net.graph } := by
  induction vs generalizing net with
  | nil => exact h
  | cons v vs ih => exact ih (h.copyEdges rnd vertices agg v)

theorem Inv.foldlM_removeVertex (h : Inv net) {vs : List NetVertex}
    (hfree : ∀ v ∈ vs, ∀ (n : String) (e : NetEdge), net.nameEdgeMap[n]? = some e →
      e.src ≠ v ∧ e.dst ≠ v) {net' : NetState}
    (hr : vs.foldlM NetState.removeVertex net = some net') : Inv net' := by
  induction vs generalizing net with
  | nil =>
    cases hr
    exact h
  | cons v vs ih =>
    rw [List.foldlM_cons] at hr
    obtain ⟨mid, hmid, hr⟩ := Option.bind_eq_some_iff.1 hr
    have hmap : mid.nameEdgeMap = net.nameEdgeMap := by
      obtain ⟨p, -, rfl⟩ := Option.map_eq_some_iff.1 hmid
      rfl
    refine ih (h.removeVertex (hfree v List.mem_cons_self) hmid) (fun u hu n e he => ?_) hr
    rw [hmap] at he
    exact hfree u (List.mem_cons_of_mem v hu) n e he

theorem addNode_nameEdgeMap (net : NetState) (name : String) :
    (net.addNode name).2.nameEdgeMap = net.nameEdgeMap := by
  unfold NetState.addNode
  split <;> rfl

/-- What `aggregate_node` must not meet: a rename to a taken name, or a vertex to aggregate at the
end of an edge in the edge map. -/
def AggregateFree (net : NetState) (vertices : StdSet NetVertex) (name : String) : Prop :=
  match vertices.toList with
  | [v] => ∀ v', net.nameVertMap[name]? = some v' → v' = v
  | vs => ∀ v ∈ vs, ∀ (n : String) (e : NetEdge), net.nameEdgeMap[n]? = some e →
      e.src ≠ v ∧ e.dst ≠ v

theorem Inv.aggregateNode (h : Inv net) (rnd : ℚ → Double) {vertices : StdSet NetVertex}
    {name : String} (hfree : AggregateFree net vertices name)
    {res : Option NetVertex × NetState}
    (hr : net.aggregateNode rnd vertices name = some res) : Inv res.2 := by
  unfold NetState.aggregateNode at hr
  unfold AggregateFree at hfree
  split at hr
  · next v hvs =>
    rw [hvs] at hfree
    obtain ⟨net', hn, rfl⟩ := Option.map_eq_some_iff.1 hr
    exact h.setVertexName hfree hn
  · next vs hvs =>
    have hadd := h.addNode name
    have hmap := addNode_nameEdgeMap net name
    split at hr
    · next net' heq =>
      cases hr
      rw [heq] at hadd
      exact hadd
    · next v net' heq =>
      split at hr
      · rw [heq] at hadd hmap
        obtain ⟨net'', hn, rfl⟩ := Option.map_eq_some_iff.1 hr
        refine (hadd.foldl_copyEdges rnd vertices v _).foldlM_removeVertex ?_ hn
        intro u hu n e he
        simp only at hmap he
        rw [hmap] at he
        split at hfree
        · next w hw => exact absurd hw (hvs w)
        · exact hfree u hu n e he
      · cases hr

/-! ## Copying -/

theorem edgeList_perm (g : NetGraph) : g.edgeList.Perm g.edgesByEnds := List.perm_insertionSort _ _

theorem mem_edgeList {g : NetGraph} {e : NetEdge} {p : EdgeProps} :
    (e, p) ∈ g.edgeList ↔ g.edge? e = some p := by
  rw [edge?_eq_some, ← Std.ExtTreeMap.mem_toList_iff_getElem?_eq_some, (edgeList_perm g).mem_iff]
  simp only [NetGraph.edgesByEnds, List.mem_map, Prod.mk.injEq]
  constructor
  · rintro ⟨⟨k, i, q⟩, hx, rfl, rfl⟩
    exact hx
  · intro hx
    exact ⟨_, hx, rfl, rfl⟩

theorem copy_nameVertMap : net.doCopyProperties.nameVertMap =
    net.graph.verts.toList.foldl (fun m x => m.insert x.2.name x.1) ∅ := rfl

theorem copy_nameEdgeMap : net.doCopyProperties.nameEdgeMap =
    net.graph.edgeList.foldl (fun m x => m.insert x.2.name x.1) ∅ := rfl

/-- The copy has the same graph, and its name maps are exact again. -/
theorem Inv.copy (h : Inv net) : Inv net.doCopyProperties := by
  have hv := StdMap.get_foldl_insert (fun x : NetVertex × VertexProps => x.2.name)
    (fun x => x.1) net.graph.verts.toList ∅
  have he := StdMap.get_foldl_insert (fun x : NetEdge × EdgeProps => x.2.name)
    (fun x => x.1) net.graph.edgeList ∅
  have hmem : ∀ x, x ∈ net.graph.verts.toList ↔ net.graph.verts[x.1]? = some x.2 :=
    fun _ => Std.ExtTreeMap.mem_toList_iff_getElem?_eq_some
  refine ⟨fun n v => ?_, fun n e hn hne => ?_, fun n e hx => ?_, h.fresh⟩
  · change _ ↔ net.graph.vertexName v = some n
    rw [copy_nameVertMap]
    rcases hv n with ⟨⟨u, p⟩, hu, hk, hres⟩ | ⟨hno, hres⟩
    · have hun : net.graph.vertexName u = some n := by
        simp [NetGraph.vertexName, (hmem (u, p)).1 hu, ← hk]
      rw [hres]
      constructor
      · intro huv
        rwa [← Option.some.inj huv]
      · intro hvn
        rw [← (h.vert n u).2 hun, (h.vert n v).2 hvn]
    · rw [hres]
      refine iff_of_false (by simp) (fun hvn => ?_)
      obtain ⟨p, hp, hpn⟩ := Option.map_eq_some_iff.1 hvn
      exact hno (v, p) ((hmem (v, p)).2 hp) hpn
  · rw [copy_nameEdgeMap]
    change net.graph.edgeName e = some n at hn
    rcases he n with ⟨⟨x, p⟩, hx, hk, hres⟩ | ⟨hno, -⟩
    · have hxn : net.graph.edgeName x = some n := by
        simp [NetGraph.edgeName, mem_edgeList.1 hx, ← hk]
      rw [hres, ← h.named n x hxn hne, h.named n e hn hne]
    · obtain ⟨p, hp, hpn⟩ := Option.map_eq_some_iff.1 hn
      exact absurd hpn (hno (e, p) (mem_edgeList.2 hp))
  · rw [copy_nameEdgeMap] at hx
    change net.graph.edgeName e = some n
    rcases he n with ⟨⟨x, p⟩, hmem, hk, hres⟩ | ⟨-, hres⟩
    · rw [hres] at hx
      obtain rfl := Option.some.inj hx
      simp [NetGraph.edgeName, mem_edgeList.1 hmem, ← hk]
    · rw [hres] at hx
      simp at hx

end

/-! ## Runs -/

/-- The operations on a network state. -/
inductive Op where
  | addNode (name : String)
  | removeNode (name : String)
  | removeVertex (v : NetVertex)
  | addEdge (src dst : NetVertex)
  | addEdgeByName (src dst : String)
  | removeEdge (e : NetEdge)
  | removeEdgeByName (src dst : String)
  | setVertexName (v : NetVertex) (value : String)
  | setEdgeName (e : NetEdge) (value : String)
  | setExternal (v : NetVertex) (value : Bool)
  | setPid (v : NetVertex) (value : PID)
  | setTraffic (e : NetEdge) (value : Double)
  | setCapacity (e : NetEdge) (value : Double)
  | aggregateNode (vertices : StdSet NetVertex) (name : String)
  | copy

/-- One operation; `copy` goes on with the copy. -/
def step (rnd : ℚ → Double) (net : NetState) : Op → Option NetState
  | .addNode name => some (net.addNode name).2
  | .removeNode name => (net.removeNode name).map (·.2)
  | .removeVertex v => net.removeVertex v
  | .addEdge src dst => (net.addEdge src dst).map (·.2)
  | .addEdgeByName src dst => (net.addEdgeByName src dst).map (·.2)
  | .removeEdge e => net.removeEdge e
  | .removeEdgeByName src dst => (net.removeEdgeByName src dst).map (·.2)
  | .setVertexName v value => net.setVertexName v value
  | .setEdgeName e value => net.setEdgeName e value
  | .setExternal v value => net.setExternal v value
  | .setPid v value => net.setPid v value
  | .setTraffic e value => net.setTraffic e value
  | .setCapacity e value => net.setCapacity e value
  | .aggregateNode vertices name => (net.aggregateNode rnd vertices name).map (·.2)
  | .copy => some net.doCopyProperties

/-- No entry of the edge map has `v` as an end. -/
def VertexFree (net : NetState) (v : NetVertex) : Prop :=
  ∀ (n : String) (e : NetEdge), net.nameEdgeMap[n]? = some e → e.src ≠ v ∧ e.dst ≠ v

/-- No entry of the edge map is `e`. -/
def EdgeFree (net : NetState) (e : NetEdge) : Prop := ∀ n : String, net.nameEdgeMap[n]? ≠ some e

/-- An operation removes no edge that the edge map holds, and gives no name that is taken. -/
def Op.Free (net : NetState) : Op → Prop
  | .removeNode name => ∀ v, net.getNode name = some v → VertexFree net v
  | .removeVertex v => VertexFree net v
  | .removeEdge e => EdgeFree net e
  | .removeEdgeByName src dst =>
    ∀ s d e, net.getNode src = some s → net.getNode dst = some d → net.getEdgeBetween s d = some e →
      EdgeFree net e
  | .setVertexName v value => ∀ v', net.nameVertMap[value]? = some v' → v' = v
  | .setEdgeName e value => value = "" ∨ ∀ e', net.nameEdgeMap[value]? = some e' → e' = e
  | .aggregateNode vertices name => AggregateFree net vertices name
  | _ => True

theorem Inv.setVertexProps {net : NetState} (h : Inv net) {v : NetVertex}
    {f : VertexProps → VertexProps} (hf : ∀ p, (f p).name = p.name) :
    Inv { net with graph := { net.graph with verts := net.graph.verts.modify v f } } := by
  refine h.graph_congr (fun u => ?_) (fun _ _ hn => hn) (fun _ _ hn => Or.inr hn) (Nat.le_refl _)
  simp only [NetGraph.vertexName, Std.ExtTreeMap.getElem?_modify, compare_eq_iff_eq]
  split
  · next huv =>
    subst huv
    simp [Function.comp_def, hf]
  · rfl

theorem Inv.step {net net' : NetState} (h : Inv net) (rnd : ℚ → Double) {op : Op}
    (hfree : op.Free net) (hs : step rnd net op = some net') : Inv net' := by
  cases op with
  | addNode name =>
    cases hs
    exact h.addNode name
  | removeNode name =>
    obtain ⟨res, hr, rfl⟩ := Option.map_eq_some_iff.1 hs
    unfold NetState.removeNode at hr
    split at hr
    · cases hr
      exact h
    · next v hv =>
      obtain ⟨net'', hn, rfl⟩ := Option.map_eq_some_iff.1 hr
      exact h.removeVertex (hfree v hv) hn
  | removeVertex v => exact h.removeVertex hfree hs
  | addEdge src dst =>
    obtain ⟨res, hr, rfl⟩ := Option.map_eq_some_iff.1 hs
    exact h.addEdge hr
  | addEdgeByName src dst =>
    obtain ⟨res, hr, rfl⟩ := Option.map_eq_some_iff.1 hs
    unfold NetState.addEdgeByName at hr
    split at hr
    · exact h.addEdge hr
    · cases hr
      exact h
  | removeEdge e => exact h.removeEdge hfree hs
  | removeEdgeByName src dst =>
    obtain ⟨res, hr, rfl⟩ := Option.map_eq_some_iff.1 hs
    unfold NetState.removeEdgeByName at hr
    split at hr
    · cases hr
      exact h
    · next e he =>
      obtain ⟨net'', hn, rfl⟩ := Option.map_eq_some_iff.1 hr
      obtain ⟨s, hsrc, he⟩ := Option.bind_eq_some_iff.1 he
      obtain ⟨d, hdst, he⟩ := Option.bind_eq_some_iff.1 he
      exact h.removeEdge (hfree s d e hsrc hdst he) hn
  | setVertexName v value => exact h.setVertexName hfree hs
  | setEdgeName e value => exact h.setEdgeName hfree hs
  | setExternal v value =>
    simp only [NetState.step, NetState.setExternal] at hs
    split at hs
    · cases hs
      exact h.setVertexProps fun _ => rfl
    · cases hs
  | setPid v value =>
    simp only [NetState.step, NetState.setPid] at hs
    split at hs
    · cases hs
      exact h.setVertexProps fun _ => rfl
    · cases hs
  | setTraffic e value =>
    obtain ⟨p, hp, rfl⟩ := Option.map_eq_some_iff.1 hs
    exact h.putEdge hp rfl
  | setCapacity e value =>
    obtain ⟨p, hp, rfl⟩ := Option.map_eq_some_iff.1 hs
    exact h.putEdge hp rfl
  | aggregateNode vertices name =>
    obtain ⟨res, hr, rfl⟩ := Option.map_eq_some_iff.1 hs
    exact h.aggregateNode rnd hfree hr
  | copy =>
    cases hs
    exact h.copy

/-- Along every run whose operations remove no indexed edge and give no taken name, the vertex map
and the vertex names are inverse to each other, every named edge is found under its name, and every
entry of the edge map is an edge of the graph with that name; so a lookup by name never returns a
removed vertex or edge. -/
theorem name_indexes_exact (rnd : ℚ → Double) {ops : List Op} {net : NetState}
    (hr : Run (step rnd) (fun net op => op.Free net) empty ops net) :
    (∀ n v, net.getNode n = some v ↔ net.graph.vertexName v = some n) ∧
      (∀ n e, net.graph.edgeName e = some n → n ≠ "" → net.getEdge n = some e) ∧
      (∀ n e, net.getEdge n = some e → net.graph.edgeName e = some n) ∧
      (∀ n v, net.getNode n = some v → v ∈ net.graph.verts) ∧
      (∀ n e, net.getEdge n = some e → ∃ p, net.graph.edge? e = some p) := by
  have h : Inv net := hr.invariant inv_empty fun _ _ _ hinv hok hs => hinv.step rnd hok hs
  refine ⟨h.vert, h.named, h.entry, fun n v hv => ?_, fun n e he => ?_⟩
  · exact mem_verts_iff.2 ⟨n, (h.vert n v).1 hv⟩
  · obtain ⟨p, hp, -⟩ := Option.map_eq_some_iff.1 (h.entry n e he)
    exact ⟨p, hp⟩

/-- Two nodes and a named link between them. -/
def linkOps : List Op :=
  [.addNode "a", .addNode "b", .addEdge 0 1, .setEdgeName ⟨0, 1, 2⟩ "ab"]

/-- The network state after `linkOps`. -/
def linked : NetState where
  graph :=
    { verts := (∅ : StdMap NetVertex VertexProps).insert 0 ⟨false, "a", default⟩ |>.insert 1
        ⟨false, "b", default⟩
      edges := (∅ : StdMap (NetVertex ×ₗ NetVertex) (Nat × EdgeProps)).insert (toLex (0, 1))
        (2, ⟨"ab", 0, 1⟩)
      next := 3 }
  nameVertMap := (∅ : StdMap String NetVertex).insert "a" 0 |>.insert "b" 1
  nameEdgeMap := (∅ : StdMap String NetEdge).insert "ab" ⟨0, 1, 2⟩

theorem name_indexes_exact_linked :
    Run (step fun q => .fin q) (fun net op => op.Free net) empty linkOps linked ∧
      linked.graph.edgeName ⟨0, 1, 2⟩ = some "ab" := by
  have hr : Run (step fun q => .fin q) (fun net op => op.Free net) empty linkOps linked := by
    refine .cons trivial rfl (.cons trivial rfl (.cons trivial rfl (.cons ?_ ?_ (.nil _))))
    · refine Or.inr fun e he => ?_
      simp [NetState.addNode, NetState.getNode, empty] at he
    · decide
  exact ⟨hr, (name_indexes_exact _ hr).2.2.1 "ab" _ (by decide)⟩

/-- Deleting the link leaves its name in the edge map: the lookup returns the removed edge. -/
theorem name_index_keeps_removed_edge :
    ∃ net, Run (step fun q => .fin q) (fun _ _ => True) empty
        (linkOps ++ [.removeEdge ⟨0, 1, 2⟩]) net ∧
      net.getEdge "ab" = some ⟨0, 1, 2⟩ ∧ net.graph.edge? ⟨0, 1, 2⟩ = none := by
  refine ⟨_, .cons trivial rfl (.cons trivial rfl (.cons trivial rfl (.cons trivial rfl
    (.cons trivial rfl (.nil _))))), ?_, ?_⟩
  · decide
  · decide

end Alto.NetState
