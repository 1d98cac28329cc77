import Alto.Verify.NetMerge

/-!
# The fast path of aggregation

A set of one vertex is not merged but renamed. Up to the identity of the vertex this is the same as
merging only if there is nothing that renaming keeps and merging drops.
-/

namespace Alto.NetState

open Lib NetGraph

variable {net net' : NetState} {name : String} {v w : NetVertex} {rnd : ℚ → Double} {ops : List Op}

/-! ## The name indexes name what there is -/

/-- The vertex map has only vertices under their names, and descriptors of edges are not above those
that were handed out. -/
structure Indexed (net : NetState) : Prop where
  closed : net.graph.Closed
  node : ∀ n v, net.getNode n = some v → net.graph.vertexName v = some n
  link : ∀ n e, net.getEdge n = some e → e.src < net.graph.next ∧ e.dst < net.graph.next

/-- Operations that touch neither the names nor the name maps. -/
theorem Indexed.congr (h : Indexed net) (hclosed : net'.graph.Closed)
    (hnames : net'.graph.vertexName = net.graph.vertexName)
    (hnodes : net'.nameVertMap = net.nameVertMap) (hlinks : net'.nameEdgeMap = net.nameEdgeMap)
    (hnext : net.graph.next ≤ net'.graph.next) : Indexed net' where
  closed := hclosed
  node n v hv := by
    rw [hnames]
    exact h.node n v (by rwa [getNode, hnodes] at hv)
  link n e he := by
    obtain ⟨hs, hd⟩ := h.link n e (by rwa [getEdge, hlinks] at he)
    exact ⟨Nat.lt_of_lt_of_le hs hnext, Nat.lt_of_lt_of_le hd hnext⟩

theorem Indexed.extends (h : Indexed net) {g : NetGraph} (hext : Extends net.graph g) :
    Indexed { net with graph := g } :=
  h.congr (h.closed.extends hext) (by funext v; rw [vertexName, hext.verts, vertexName]) rfl rfl
    hext.next

theorem Indexed.addNode (h : Indexed net) (name : String) : Indexed (net.addNode name).2 := by
  have hclosed := closed_addNode h.closed name
  cases hname : net.getNode name with
  | some v => rwa [NetState.addNode, hname]
  | none =>
    rw [NetState.addNode, hname] at hclosed ⊢
    refine ⟨hclosed, fun n v hv => ?_, fun n e he => ?_⟩
    · simp only [getNode, StdMap.get_insertIfNew] at hv
      simp only [vertexName, addVertex, StdMap.get_insert]
      split at hv
      · next hn =>
        obtain rfl := Option.some.inj hv
        exact (congrArg _ (if_pos rfl)).trans (congrArg some hn.1)
      · have hold := h.node n v hv
        have hmem : v ∈ net.graph.verts := mem_verts_iff.2 ⟨n, hold⟩
        rw [if_neg (Nat.ne_of_gt (h.closed.fresh v hmem))]
        exact hold
    · obtain ⟨hs, hd⟩ := h.link n e he
      exact ⟨Nat.lt_succ_of_lt hs, Nat.lt_succ_of_lt hd⟩

theorem Indexed.setVertexName (h : Indexed net) {value : String}
    (hrun : net.setVertexName v value = some net') : Indexed net' := by
  have hclosed := closed_setVertexName h.closed hrun
  obtain ⟨p, hp, rfl⟩ := Option.map_eq_some_iff.1 hrun
  refine ⟨hclosed, fun n u hu => ?_, h.link⟩
  simp only [getNode, StdMap.get_erase_insertIfNew] at hu
  simp only [vertexName, StdMap.get_insert]
  split at hu
  · next hn =>
    obtain rfl := Option.some.inj hu
    rw [if_pos rfl, ← hn.1]
    rfl
  · split at hu
    · cases hu
    · next hn =>
      have hold := h.node n u hu
      rw [if_neg, ← vertexName, hold]
      rintro rfl
      rw [vertexName, hp] at hold
      exact hn (Option.some.inj hold)

theorem Indexed.removeVertex (h : Indexed net) (hrun : net.removeVertex v = some net') :
    Indexed net' := by
  have hclosed := closed_removeVertex h.closed hrun
  obtain ⟨p, hp, rfl⟩ := Option.map_eq_some_iff.1 hrun
  refine ⟨hclosed, fun n u hu => ?_, h.link⟩
  simp only [getNode, StdMap.get_erase] at hu
  split at hu
  · cases hu
  · next hn =>
    have hold := h.node n u hu
    have hne : u ≠ v := by
      rintro rfl
      rw [vertexName, hp] at hold
      exact hn (Option.some.inj hold)
    rw [vertexName] at hold
    rw [vertexName, NetGraph.removeVertex, StdMap.get_erase, if_neg (Ne.symm hne), hold]

theorem Indexed.foldlM_removeVertex {vs : List NetVertex} (h : Indexed net)
    (hrun : vs.foldlM NetState.removeVertex net = some net') : Indexed net' := by
  induction vs generalizing net with
  | nil => exact Option.some.inj hrun ▸ h
  | cons v vs ih =>
    rw [List.foldlM_cons] at hrun
    obtain ⟨mid, hmid, hrun⟩ := Option.bind_eq_some_iff.1 hrun
    exact ih (h.removeVertex hmid) hrun

theorem Indexed.mergeVertices (h : Indexed net) {V : StdSet NetVertex}
    {res : Option NetVertex × NetState} (hrun : net.mergeVertices rnd V name = some res) :
    Indexed res.2 := by
  have hadd := h.addNode name
  rw [NetState.mergeVertices] at hrun
  split at hrun
  · next mid heq =>
    obtain rfl := Option.some.inj hrun
    rwa [heq] at hadd
  · next w mid heq =>
    rw [heq] at hadd
    split at hrun
    · obtain ⟨net', hremove, rfl⟩ := Option.map_eq_some_iff.1 hrun
      have hw : w ∈ mid.graph.verts := by
        cases hname : net.getNode name with
        | some u =>
          rw [NetState.addNode, hname] at heq
          cases heq
        | none =>
          obtain ⟨mid', hadd', -, -, htags⟩ := addNode_tags hname h.closed
          obtain ⟨hw, rfl⟩ := Prod.mk.inj (hadd'.symm.trans heq)
          obtain rfl := Option.some.inj hw
          exact mem_verts_iff_tags.2 ⟨_, (htags _).trans (if_pos rfl)⟩
      exact (hadd.extends (hadd.closed.foldl_copyEdges rnd V hw _)).foldlM_removeVertex hremove
    · cases hrun

theorem Indexed.aggregateNode (h : Indexed net) {V : StdSet NetVertex}
    {res : Option NetVertex × NetState} (hrun : net.aggregateNode rnd V name = some res) :
    Indexed res.2 := by
  by_cases hone : ∃ v, V.toList = [v]
  · obtain ⟨v, hone⟩ := hone
    rw [NetState.aggregateNode, hone] at hrun
    obtain ⟨net', hset, rfl⟩ := Option.map_eq_some_iff.1 hrun
    exact h.setVertexName hset
  · push Not at hone
    rw [aggregateNode_eq_mergeVertices hone] at hrun
    exact h.mergeVertices hrun

theorem Indexed.putEdge (h : Indexed net) {e : NetEdge} {p q : EdgeProps}
    (hp : net.graph.edge? e = some p) : Indexed { net with graph := net.graph.putEdge e q } :=
  h.congr (closed_putEdge h.closed hp) rfl rfl rfl (Nat.le_refl _)

theorem Indexed.setEdgeName (h : Indexed net) {e : NetEdge} {value : String}
    (hrun : net.setEdgeName e value = some net') : Indexed net' := by
  obtain ⟨p, hp, rfl⟩ := Option.map_eq_some_iff.1 hrun
  have hedge : net.graph.Edge e.src e.dst := StdMap.mem_iff_get.2 ⟨_, edge?_eq_some.1 hp⟩
  obtain ⟨hs, hd⟩ := h.closed.ends _ _ hedge
  refine ⟨closed_putEdge h.closed hp, h.node, fun n e' he => ?_⟩
  simp only [getEdge, StdMap.get_erase_insertIfNew] at he
  split at he
  · obtain rfl := Option.some.inj he
    exact ⟨h.closed.fresh _ hs, h.closed.fresh _ hd⟩
  · split at he
    · cases he
    · exact h.link n e' he

theorem Indexed.addEdge (h : Indexed net) {src dst : NetVertex}
    {res : Option NetEdge × NetState} (hrun : net.addEdge src dst = some res) :
    Indexed res.2 := by
  have hclosed := closed_addEdge h.closed hrun
  rw [NetState.addEdge] at hrun
  split at hrun
  · next hmem =>
    obtain ⟨hext, -, -⟩ := extends_addEdge hmem.1 hmem.2
    split at hrun
    · obtain rfl := Option.some.inj hrun
      exact h
    · next e g heq =>
      obtain rfl := Option.some.inj hrun
      rw [heq] at hext
      exact h.congr hclosed (by funext v; rw [vertexName, NetGraph.putEdge, hext.verts, vertexName])
        rfl rfl hext.next
  · cases hrun

theorem Indexed.removeEdge (h : Indexed net) {e : NetEdge}
    (hrun : net.removeEdge e = some net') : Indexed net' := by
  have hclosed := closed_removeEdge h.closed hrun
  obtain ⟨p, -, rfl⟩ := Option.map_eq_some_iff.1 hrun
  exact h.congr hclosed rfl rfl rfl (Nat.le_refl _)

theorem Indexed.copy (h : Indexed net) : Indexed net.doCopyProperties := by
  refine ⟨h.closed, fun n v hv => ?_, fun n e he => ?_⟩
  · rw [getNode, copy_nameVertMap] at hv
    rcases StdMap.get_foldl_insert (fun x : NetVertex × VertexProps => x.2.name) (fun x => x.1)
      net.graph.verts.toList ∅ n with ⟨⟨u, p⟩, hu, rfl, hres⟩ | ⟨-, hres⟩
    · obtain rfl := Option.some.inj (hres.symm.trans hv)
      change net.graph.vertexName u = some p.name
      rw [vertexName, Std.ExtTreeMap.mem_toList_iff_getElem?_eq_some.1 hu]
      rfl
    · rw [hres] at hv
      simp at hv
  · rw [getEdge, copy_nameEdgeMap] at he
    rcases StdMap.get_foldl_insert (fun x : NetEdge × EdgeProps => x.2.name) (fun x => x.1)
      net.graph.edgeList ∅ n with ⟨⟨e', p⟩, he', rfl, hres⟩ | ⟨-, hres⟩
    · obtain rfl := Option.some.inj (hres.symm.trans he)
      obtain ⟨hs, hd⟩ := h.closed.ends _ _ (NetGraph.mem_edgeList.2 ⟨_, he', rfl, rfl⟩)
      exact ⟨h.closed.fresh _ hs, h.closed.fresh _ hd⟩
    · rw [hres] at he
      simp at he

theorem Indexed.modifyVertex (h : Indexed net) (f : VertexProps → VertexProps)
    (hf : ∀ p, (f p).name = p.name) (hv : v ∈ net.graph.verts) : Indexed { net with
      graph := { net.graph with verts := net.graph.verts.modify v f } } := by
  obtain ⟨p, hp⟩ := StdMap.mem_iff_get.1 hv
  refine h.congr ((tags_modify f hp).closed hv h.closed) ?_ rfl rfl (Nat.le_refl _)
  funext u
  simp only [vertexName, Std.ExtTreeMap.getElem?_modify, compare_eq_iff_eq]
  split
  · next hu =>
    subst hu
    rw [hp]
    exact congrArg some (hf p)
  · rfl

theorem Indexed.step (h : Indexed net) (rnd : ℚ → Double) {op : Op}
    (hs : step rnd net op = some net') : Indexed net' := by
  cases op with
  | addNode name => exact Option.some.inj hs ▸ h.addNode name
  | removeNode name =>
    obtain ⟨res, hr, rfl⟩ := Option.map_eq_some_iff.1 hs
    rw [removeNode] at hr
    split at hr
    · obtain rfl := Option.some.inj hr
      exact h
    · obtain ⟨mid, hn, rfl⟩ := Option.map_eq_some_iff.1 hr
      exact h.removeVertex hn
  | removeVertex v => exact h.removeVertex hs
  | addEdge src dst =>
    obtain ⟨res, hr, rfl⟩ := Option.map_eq_some_iff.1 hs
    exact h.addEdge hr
  | addEdgeByName src dst =>
    obtain ⟨res, hr, rfl⟩ := Option.map_eq_some_iff.1 hs
    rw [addEdgeByName] at hr
    split at hr
    · exact h.addEdge hr
    · obtain rfl := Option.some.inj hr
      exact h
  | removeEdge e => exact h.removeEdge hs
  | removeEdgeByName src dst =>
    obtain ⟨res, hr, rfl⟩ := Option.map_eq_some_iff.1 hs
    rw [removeEdgeByName] at hr
    split at hr
    · obtain rfl := Option.some.inj hr
      exact h
    · obtain ⟨mid, hn, rfl⟩ := Option.map_eq_some_iff.1 hr
      exact h.removeEdge hn
  | setVertexName v value => exact h.setVertexName hs
  | setEdgeName e value => exact h.setEdgeName hs
  | setExternal v value =>
    simp only [NetState.step, setExternal] at hs
    split at hs
    · next hv => exact Option.some.inj hs ▸ h.modifyVertex _ (fun _ => rfl) hv
    · cases hs
  | setPid v value =>
    simp only [NetState.step, setPid] at hs
    split at hs
    · next hv => exact Option.some.inj hs ▸ h.modifyVertex _ (fun _ => rfl) hv
    · cases hs
  | setTraffic e value =>
    obtain ⟨p, hp, rfl⟩ := Option.map_eq_some_iff.1 hs
    exact h.putEdge hp
  | setCapacity e value =>
    obtain ⟨p, hp, rfl⟩ := Option.map_eq_some_iff.1 hs
    exact h.putEdge hp
  | aggregateNode vertices name =>
    obtain ⟨res, hr, rfl⟩ := Option.map_eq_some_iff.1 hs
    exact h.aggregateNode hr
  | copy => exact Option.some.inj hs ▸ h.copy

/-- The network states that the operations reach. -/
theorem indexed_of_run (h : Run (NetState.step rnd) (fun _ _ => True) empty ops net) :
    Indexed net := by
  refine h.invariant (I := Indexed) ⟨⟨fun _ hv => ?_, fun _ _ he => ?_⟩, fun n v hv => ?_,
    fun n e he => ?_⟩ fun _ _ _ hinv _ hs => hinv.step rnd hs
  · exact absurd hv Std.ExtTreeMap.not_mem_empty
  · exact absurd he Std.ExtTreeMap.not_mem_empty
  · simp [getNode, empty] at hv
  · simp [getEdge, empty] at he

/-! ## Renaming and merging -/

/-- An edge found by name, with its properties if it is in the graph. -/
def linkAt (net : NetState) (n : String) : Option (NetVertex × NetVertex × Option EdgeProps) :=
  (net.getEdge n).map fun e => (e.src, e.dst, net.graph.edge? e)

/-- The same network state, with other vertices in the places of the vertices. -/
structure Renamed (f : NetVertex → NetVertex) (net net' : NetState) : Prop where
  verts : ∀ u, net'.graph.verts[f u]? = net.graph.verts[u]?
  edges : ∀ a b, net'.graph.props (f a) (f b) = net.graph.props a b
  nodes : ∀ n, net'.getNode n = (net.getNode n).map f
  links : ∀ n, net'.linkAt n = (net.linkAt n).map fun l => (f l.1, f l.2.1, l.2.2)

/-- Aggregating one vertex does what the general code does for its set: both fail without a change, or
both succeed with the same network state up to the identity of the vertex. -/
def FastPathAgrees (rnd : ℚ → Double) (net : NetState) (v : NetVertex) (name : String) : Prop :=
  (net.aggregateNode rnd {v} name = some (none, net) ∧
    net.mergeVertices rnd {v} name = some (none, net)) ∨
  ∃ u w fast general, net.aggregateNode rnd {v} name = some (some u, fast) ∧
    net.mergeVertices rnd {v} name = some (some w, general) ∧
    Renamed (Equiv.swap u w) fast general

/-- There is nothing that renaming keeps and merging drops, and the name is free. -/
structure Plain (net : NetState) (v : NetVertex) (name : String) : Prop where
  free : net.getNode name = none
  vertex : ∃ old, net.graph.verts[v]? = some ⟨false, old, default⟩ ∧ old ≠ name
  loop : ¬ net.graph.Edge v v
  unnamed : ∀ u p, net.graph.props u v = some p ∨ net.graph.props v u = some p → p.name = ""
  unlisted : ∀ n e, net.getEdge n = some e → e.src ≠ v ∧ e.dst ≠ v

theorem toList_single (v : NetVertex) : ({v} : StdSet NetVertex).toList = [v] :=
  StdSet.toList_eq_singleton_iff.2 fun _ => StdSet.mem_singleton

/-- What the fast path does. -/
theorem aggregateNode_single (rnd : ℚ → Double) (name : String) {p : VertexProps}
    (hp : net.graph.verts[v]? = some p) :
    ∃ fast, net.aggregateNode rnd {v} name = some (some v, fast) ∧
      (∀ u, fast.graph.verts[u]? = if v = u then some { p with name } else net.graph.verts[u]?) ∧
      fast.graph.edges = net.graph.edges ∧
      fast.nameVertMap = (net.nameVertMap.erase p.name).insertIfNew name v ∧
      fast.nameEdgeMap = net.nameEdgeMap := by
  refine ⟨{ net with
    graph := { net.graph with verts := net.graph.verts.insert v { p with name } }
    nameVertMap := (net.nameVertMap.erase p.name).insertIfNew name v }, ?_,
    fun u => StdMap.get_insert, rfl, rfl, rfl⟩
  simp only [aggregateNode, toList_single, setVertexName, hp]
  rfl

/-- What the general code does to the name maps. -/
theorem mergeVertices_single {p : VertexProps} {res : Option NetVertex × NetState}
    (hclosed : net.graph.Closed) (hp : net.graph.verts[v]? = some p)
    (hname : net.getNode name = none) (hrun : net.mergeVertices rnd {v} name = some res) :
    res.2.nameVertMap = (net.nameVertMap.insertIfNew name net.graph.next).erase p.name ∧
      res.2.nameEdgeMap = net.nameEdgeMap := by
  have hv : v ∈ net.graph.verts := StdMap.mem_iff_get.2 ⟨p, hp⟩
  have hmid := closed_addNode hclosed name
  have hw : net.graph.next ∈ (net.addNode name).2.graph.verts := by
    rw [addNode, hname]
    exact Std.ExtTreeMap.mem_insert_self
  have hold : (net.addNode name).2.graph.verts[v]? = some p := by
    rw [addNode, hname]
    refine StdMap.get_insert.trans ?_
    rw [if_neg (Nat.ne_of_gt (hclosed.fresh v hv)), hp]
  rw [mergeVertices, show net.addNode name = (some net.graph.next, (net.addNode name).2) by
    rw [addNode, hname]; rfl] at hrun
  simp only at hrun
  split at hrun
  · have hext := hmid.foldl_copyEdges rnd {v} hw ({v} : StdSet NetVertex).toList
    obtain ⟨net', hremove, rfl⟩ := Option.map_eq_some_iff.1 hrun
    rw [toList_single] at hremove hext
    rw [List.foldlM_cons, removeVertex, hext.verts, hold] at hremove
    obtain rfl := Option.some.inj hremove
    rw [addNode, hname]
    exact ⟨rfl, rfl⟩
  · cases hrun

section Compare

variable {fast general : NetState} {p : VertexProps}

/-- What the two ways make of a network state for the set `{v}` and a name that is free. -/
structure Compared (rnd : ℚ → Double) (net : NetState) (v : NetVertex) (name : String)
    (p : VertexProps) (fast general : NetState) : Prop where
  old : net.graph.verts[v]? = some p
  merged : Merged rnd net general {v} name net.graph.next
  verts : ∀ u, fast.graph.verts[u]? =
    if v = u then some { p with name } else net.graph.verts[u]?
  edges : fast.graph.edges = net.graph.edges
  nodes : fast.nameVertMap = (net.nameVertMap.erase p.name).insertIfNew name v
  nodes' : general.nameVertMap = (net.nameVertMap.insertIfNew name net.graph.next).erase p.name
  links : fast.nameEdgeMap = net.nameEdgeMap
  links' : general.nameEdgeMap = net.nameEdgeMap

/-- Copying one edge to the new vertex drops its name. -/
def unnamed (p : EdgeProps) : EdgeProps := { p with name := "" }

theorem Compared.props_into (h : Compared rnd net v name p fast general) {u : NetVertex}
    (hu : u ≠ net.graph.next) (huv : u ≠ v) :
    general.graph.props u net.graph.next = (net.graph.props u v).map unnamed := by
  rw [h.merged.into u hu fun hmem => huv (StdSet.mem_singleton.1 hmem), toList_single]
  cases hp : net.graph.props u v <;> simp [hp] <;> rfl

theorem Compared.props_from (h : Compared rnd net v name p fast general) {u : NetVertex}
    (hu : u ≠ net.graph.next) (huv : u ≠ v) :
    general.graph.props net.graph.next u = (net.graph.props v u).map unnamed := by
  rw [h.merged.from_ u hu fun hmem => huv (StdSet.mem_singleton.1 hmem), toList_single]
  cases hp : net.graph.props v u <;> simp [hp] <;> rfl

/-- If the two results are the same, there was nothing to drop. -/
theorem Compared.plain (h : Compared rnd net v name p fast general) (hindex : Indexed net)
    (hname : net.getNode name = none) (hsame : Renamed (Equiv.swap v net.graph.next) fast general) :
    Plain net v name := by
  have hv : v ∈ net.graph.verts := StdMap.mem_iff_get.2 ⟨p, h.old⟩
  have hvw : v ≠ net.graph.next := Nat.ne_of_lt (hindex.closed.fresh v hv)
  have hprops : ∀ a b, fast.graph.props a b = net.graph.props a b := fun a b => by
    rw [props, h.edges, props]
  have hloop : ¬ net.graph.Edge v v := by
    rw [← props_eq_none_iff, ← hprops, ← hsame.edges, Equiv.swap_apply_left, props_eq_none_iff]
    exact h.merged.loop
  have hends : ∀ u p, net.graph.props u v = some p ∨ net.graph.props v u = some p →
      u ≠ net.graph.next ∧ u ≠ v := by
    intro u p he
    refine ⟨?_, ?_⟩
    · rintro rfl
      refine h.merged.fresh (he.elim (fun he => ?_) fun he => ?_)
      · exact (hindex.closed.ends _ _ (edge_iff_props.2 ⟨p, he⟩)).1
      · exact (hindex.closed.ends _ _ (edge_iff_props.2 ⟨p, he⟩)).2
    · rintro rfl
      exact hloop (edge_iff_props.2 ⟨p, he.elim id id⟩)
  refine ⟨hname, ⟨p.name, ?_, fun heq => ?_⟩, hloop, fun u q he => ?_, fun n e he => ?_⟩
  · have hvert := hsame.verts v
    rw [Equiv.swap_apply_left, h.merged.vertex, h.verts, if_pos rfl] at hvert
    obtain ⟨hext, -, hpid⟩ := VertexProps.mk.inj (Option.some.inj hvert)
    rw [h.old, hext, hpid]
  · -- the index of the general code does not have its own old name
    have hnode := hsame.nodes name
    rw [getNode, h.nodes', StdMap.get_erase, if_pos heq, getNode, h.nodes,
      StdMap.get_erase_insertIfNew, if_pos ⟨rfl, .inl heq⟩] at hnode
    cases hnode
  · obtain ⟨hu, huv⟩ := hends u q he
    rcases he with he | he
    · have hedge := hsame.edges u v
      rw [Equiv.swap_apply_left, Equiv.swap_apply_of_ne_of_ne huv hu, h.props_into hu huv, hprops,
        he] at hedge
      exact (congrArg EdgeProps.name (Option.some.inj hedge)).symm
    · have hedge := hsame.edges v u
      rw [Equiv.swap_apply_left, Equiv.swap_apply_of_ne_of_ne huv hu, h.props_from hu huv, hprops,
        he] at hedge
      exact (congrArg EdgeProps.name (Option.some.inj hedge)).symm
  · have hlink := hsame.links n
    simp only [linkAt, getEdge, h.links, h.links'] at hlink
    rw [getEdge] at he
    rw [he] at hlink
    obtain ⟨hs, hd⟩ := Prod.mk.inj (Option.some.inj hlink)
    replace hd := (Prod.mk.inj hd).1
    refine ⟨?_, ?_⟩
    · rintro rfl
      rw [Equiv.swap_apply_left] at hs
      exact hvw hs
    · rintro rfl
      rw [Equiv.swap_apply_left] at hd
      exact hvw hd

/-- If there is nothing to drop, the two results are the same. -/
theorem Compared.renamed (h : Compared rnd net v name p fast general) (hindex : Indexed net)
    (hplain : Plain net v name) : Renamed (Equiv.swap v net.graph.next) fast general := by
  have hw := h.merged.fresh
  have hprops : ∀ a b, fast.graph.props a b = net.graph.props a b := fun a b => by
    rw [props, h.edges, props]
  obtain ⟨old, hold, hne⟩ := hplain.vertex
  obtain rfl := Option.some.inj (hold.symm.trans h.old)
  have hiso := isolated_of_closed hindex.closed hw
  have hv : v ∈ ({v} : StdSet NetVertex) := StdSet.mem_singleton.2 rfl
  have hnot : ∀ u, u ≠ v → u ∉ ({v} : StdSet NetVertex) := fun u hu hmem =>
    hu (StdSet.mem_singleton.1 hmem)
  have hgone : ∀ u, general.graph.props v u = none ∧ general.graph.props u v = none := fun u =>
    ⟨props_eq_none_iff.2 fun he => (h.merged.ends v u he).1 hv,
      props_eq_none_iff.2 fun he => (h.merged.ends u v he).2 hv⟩
  have hunnamed : ∀ a b, (∀ q, net.graph.props a b = some q → q.name = "") →
      (net.graph.props a b).map unnamed = net.graph.props a b := by
    intro a b hq
    cases hedge : net.graph.props a b with
    | none => rfl
    | some q => exact congrArg some (by rw [unnamed, ← hq q hedge])
  refine ⟨fun u => ?_, fun a b => ?_, fun n => ?_, fun n => ?_⟩
  · rw [h.verts]
    by_cases hu : u = v
    · rw [hu, Equiv.swap_apply_left, h.merged.vertex, if_pos rfl]
    · rw [if_neg (Ne.symm hu)]
      by_cases huw : u = net.graph.next
      · rw [huw, Equiv.swap_apply_right, StdMap.get_eq_none (h.merged.gone v hv),
          StdMap.get_eq_none hw]
      · rw [Equiv.swap_apply_of_ne_of_ne hu huw, h.merged.kept u huw (hnot u hu)]
  · -- the ends of an edge are `v`, the new vertex or other vertices
    rw [hprops]
    by_cases ha : a = v
    · rw [ha, Equiv.swap_apply_left]
      by_cases hb : b = v
      · rw [hb, Equiv.swap_apply_left, props_eq_none_iff.2 h.merged.loop,
          props_eq_none_iff.2 hplain.loop]
      · by_cases hbw : b = net.graph.next
        · rw [hbw, Equiv.swap_apply_right, (hgone _).2, (hiso _).1]
        · rw [Equiv.swap_apply_of_ne_of_ne hb hbw, h.props_from hbw hb]
          exact hunnamed v b fun q hq => hplain.unnamed b q (.inr hq)
    · by_cases haw : a = net.graph.next
      · rw [haw, Equiv.swap_apply_right, (hgone _).1, (hiso _).2]
      · rw [Equiv.swap_apply_of_ne_of_ne ha haw]
        by_cases hb : b = v
        · rw [hb, Equiv.swap_apply_left, h.props_into haw ha]
          exact hunnamed a v fun q hq => hplain.unnamed a q (.inl hq)
        · by_cases hbw : b = net.graph.next
          · rw [hbw, Equiv.swap_apply_right, (hgone _).2, (hiso _).1]
          · rw [Equiv.swap_apply_of_ne_of_ne hb hbw, props,
              h.merged.keptEdge a b haw hbw (hnot a ha) (hnot b hb), props]
  · have hfree := hplain.free
    rw [getNode] at hfree
    rw [getNode, h.nodes', StdMap.get_erase, StdMap.get_insertIfNew, getNode, h.nodes,
      StdMap.get_erase_insertIfNew]
    by_cases hn : name = n
    · rw [← hn, if_neg hne, if_pos ⟨rfl, hfree⟩, if_pos ⟨rfl, .inr hfree⟩]
      exact congrArg some (Equiv.swap_apply_left v net.graph.next).symm
    · simp only [hn, false_and, if_false]
      split
      · rfl
      · next hold' =>
        cases hnode : net.nameVertMap[n]? with
        | none => rfl
        | some u =>
          have hname := hindex.node n u hnode
          refine congrArg some (Equiv.swap_apply_of_ne_of_ne ?_ ?_).symm
          · rintro rfl
            rw [vertexName, hold] at hname
            exact hold' (Option.some.inj hname)
          · rintro rfl
            exact hw (mem_verts_iff.2 ⟨n, hname⟩)
  · simp only [linkAt, getEdge, h.links, h.links']
    cases hlink : net.nameEdgeMap[n]? with
    | none => rfl
    | some e =>
      obtain ⟨hs, hd⟩ := hplain.unlisted n e hlink
      obtain ⟨hsw, hdw⟩ := hindex.link n e hlink
      have hedge : general.graph.edge? e = fast.graph.edge? e := by
        rw [edge?, edge?, h.edges, h.merged.keptEdge e.src e.dst (Nat.ne_of_lt hsw)
          (Nat.ne_of_lt hdw) (hnot _ hs) (hnot _ hd)]
      simp only [Option.map_some, hedge, Equiv.swap_apply_of_ne_of_ne hs (Nat.ne_of_lt hsw),
        Equiv.swap_apply_of_ne_of_ne hd (Nat.ne_of_lt hdw)]

end Compare

/-- Aggregating one vertex agrees with the general code exactly if the name is free, also for the
vertex itself, and the vertex has no PID, is not external, has no edge to itself, and its edges have no
names and are not found by name. -/
theorem fastPath_agrees_iff (hnet : Run (NetState.step rnd) (fun _ _ => True) empty ops net)
    (hv : v ∈ net.graph.verts) : FastPathAgrees rnd net v name ↔ Plain net v name := by
  have hindex := indexed_of_run hnet
  obtain ⟨p, hp⟩ := StdMap.mem_iff_get.1 hv
  obtain ⟨fast, hfast, hverts, hedges, hnodes, hlinks⟩ :=
    aggregateNode_single rnd name hp
  cases hname : net.getNode name with
  | some u =>
    have hgeneral : net.mergeVertices rnd {v} name = some (none, net) := by
      rw [mergeVertices, addNode, hname]
    refine iff_of_false ?_ fun hplain => ?_
    · rintro (⟨hfast', -⟩ | ⟨u, w, fast', general, -, hgeneral', -⟩)
      · rw [hfast] at hfast'
        cases hfast'
      · rw [hgeneral] at hgeneral'
        cases hgeneral'
    · rw [hplain.free] at hname
      cases hname
  | none =>
    have hsub : ∀ u ∈ ({v} : StdSet NetVertex), u ∈ net.graph.verts := fun u hu => by
      rwa [StdSet.mem_singleton.1 hu]
    obtain ⟨general, hgeneral, hmerged⟩ := mergeVertices_merged rnd hindex.closed hsub hname
    obtain ⟨hnodes', hlinks'⟩ := mergeVertices_single hindex.closed hp hname hgeneral
    have hcompared : Compared rnd net v name p fast general :=
      ⟨hp, hmerged, hverts, hedges, hnodes, hnodes', hlinks, hlinks'⟩
    constructor
    · rintro (⟨hfast', -⟩ | ⟨u, w, fast', general', hfast', hgeneral', hsame⟩)
      · rw [hfast] at hfast'
        cases hfast'
      · obtain ⟨hu, rfl⟩ := Prod.mk.inj (Option.some.inj (hfast.symm.trans hfast'))
        obtain ⟨hw, rfl⟩ := Prod.mk.inj (Option.some.inj (hgeneral.symm.trans hgeneral'))
        obtain rfl := Option.some.inj hu
        obtain rfl := Option.some.inj hw
        exact hcompared.plain hindex hname hsame
    · exact fun hplain =>
        .inr ⟨v, _, fast, general, hfast, hgeneral, hcompared.renamed hindex hplain⟩

/-- Two nodes and a link. -/
def pairOps : List Op := [.addNode "a", .addNode "b", .addEdge 0 1]

/-- The network state after `pairOps`. -/
def pair : NetState where
  graph :=
    { verts := (∅ : StdMap NetVertex VertexProps).insert 0 ⟨false, "a", default⟩ |>.insert 1
        ⟨false, "b", default⟩
      edges := (∅ : StdMap (NetVertex ×ₗ NetVertex) (Nat × EdgeProps)).insert (toLex (0, 1))
        (2, ⟨"", 0, 1⟩)
      next := 3 }
  nameVertMap := (∅ : StdMap String NetVertex).insert "a" 0 |>.insert "b" 1
  nameEdgeMap := ∅

theorem run_pair : Run (NetState.step .fin) (fun _ _ => True) empty pairOps pair :=
  .cons trivial rfl (.cons trivial rfl (.cons trivial (by decide) (.nil _)))

theorem fastPath_agrees_pair : Run (NetState.step .fin) (fun _ _ => True) empty pairOps pair ∧
    FastPathAgrees .fin pair 0 "c" := by
  refine ⟨run_pair, (fastPath_agrees_iff run_pair (by decide)).2
    ⟨by decide, ⟨"a", by decide⟩, by decide, fun u p he => ?_, fun n e he => ?_⟩⟩
  · simp only [props, pair, StdMap.get_insert, Std.ExtTreeMap.getElem?_empty, toLex_inj,
      Prod.mk.injEq] at he
    rcases he with he | he
    · simp at he
    · split at he
      · obtain rfl := Option.some.inj he
        rfl
      · cases he
  · simp [getEdge, pair] at he

/-- A node renamed to the name of another one: the fast path succeeds and the general code fails. -/
theorem fastPath_takes_name : Run (NetState.step .fin) (fun _ _ => True) empty pairOps pair ∧
    (1 : NetVertex) ∈ pair.graph.verts ∧ ¬ FastPathAgrees .fin pair 1 "a" := by
  refine ⟨run_pair, by decide, ?_⟩
  have hfast : (pair.aggregateNode .fin {1} "a").map (·.1) = some (some 1) := by decide
  have hgeneral : (pair.mergeVertices .fin {1} "a").map (·.1) = some none := by decide
  rintro (⟨hnone, -⟩ | ⟨u, w, fast, general, -, hsome, -⟩)
  · rw [hnone] at hfast
    cases hfast
  · rw [hsome] at hgeneral
    cases hgeneral

end Alto.NetState
