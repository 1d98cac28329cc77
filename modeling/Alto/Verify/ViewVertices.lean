import Alto.Verify.ViewTopology

/-!
# One vertex for each PID

After the three passes of a view update, every pinned PID has one vertex and every vertex is that of
one pinned PID, unless the number of a temporary PID is that of a PID of the view.
-/

namespace Alto.ViewUpdate

open Lib NetState

variable {net : NetState} {view : View} {agg : PIDAggregation} {u : ViewUpdate}
  {pids : PinnedPIDSet} {libs : ViewLibs} {found : FoundPids}

/-! ## Statement -/

/-- The pinned PIDs and the vertices of the graph correspond one to one. -/
structure OneToOne (net : NetState) (pids : PinnedPIDSet) : Prop where
  single : ∀ p ∈ pids, Only p.vertices p.getVertex
  tagged : ∀ p ∈ pids, net.getPid p.getVertex = some p.pid
  covered : ∀ v ∈ net.graph.verts, ∃ p ∈ pids, p.getVertex = v
  vertex : ∀ p ∈ pids, ∀ q ∈ pids, p.getVertex = q.getVertex → p = q
  pid : ∀ p ∈ pids, ∀ q ∈ pids, p.pid = q.pid → p = q

/-- The PIDs that are found are those of the records, external if a node is. -/
structure Partition (net : NetState) (agg : PIDAggregation) (found : FoundPids) : Prop where
  internal : ∀ pid, pid ∈ found.internal ↔ ∃ e ∈ viewRecords agg,
    pid = ⟨e.1.isp, e.1.num, false⟩ ∧
      ∀ v ∈ recordVertices net.doCopyProperties e.2, net.getExternal v ≠ some true
  external : ∀ pid, pid ∈ found.external ↔ ∃ e ∈ viewRecords agg,
    pid = ⟨e.1.isp, e.1.num, true⟩ ∧
      ∃ v ∈ recordVertices net.doCopyProperties e.2, net.getExternal v = some true

/-- What the three passes should leave. -/
structure Topology (net : NetState) (view : View) (agg : PIDAggregation) (u : ViewUpdate)
    (found : FoundPids) (pids : PinnedPIDSet) : Prop where
  corresponds : OneToOne u.net pids
  partition : Partition net agg found
  noExternal : ∀ v, u.net.getExternal v = some true →
    ∃ p ∈ pids, p.pid ∈ found.all ∧ p.getVertex = v
  removed : view.extraNodeAction = .remove →
    ∀ v ∈ u.net.graph.verts, ∃ p ∈ pids, p.pid ∈ found.all ∧ p.getVertex = v
  original : u.netOrig = net

/-- The internal vertices that belong to no PID of the view. -/
def leftOver (net : NetState) (agg : PIDAggregation) : List NetVertex :=
  net.doCopyProperties.getNodes.filter fun v =>
    net.doCopyProperties.getExternal v = some false ∧
      ∀ p ∈ (viewPids net agg).pids, v ∉ p.vertices

/-- No PID of the view has the number of a temporary PID. -/
def NoTempPid (net : NetState) (agg : PIDAggregation) : Prop :=
  ∀ i < (leftOver net agg).length, ∀ e ∈ viewRecords agg,
    recordPid net.doCopyProperties e ≠ tempPid i

/-- The nodes of different PIDs are different. -/
def NodesDisjoint (net : NetState) (agg : PIDAggregation) : Prop :=
  ∀ e ∈ viewRecords agg, ∀ e' ∈ viewRecords agg, e ≠ e' →
    ∀ v ∈ recordVertices net.doCopyProperties e.2, v ∉ recordVertices net.doCopyProperties e'.2

/-! ## The pinned PIDs -/

theorem PinnedPIDSet.mem_foldl_insert {l : List PinnedPID} (hnodup : (l.map (·.pid)).Nodup)
    {s : PinnedPIDSet} {q : PinnedPID} :
    q ∈ l.foldl PinnedPIDSet.insert s ↔ q ∈ s ∨ q ∈ l ∧ ∀ x ∈ s, x.pid ≠ q.pid := by
  induction l generalizing s with
  | nil => simp
  | cons p l ih =>
    obtain ⟨hp, hnodup⟩ := List.nodup_cons.1 hnodup
    rw [List.foldl_cons, ih hnodup]
    simp only [PinnedPIDSet.mem_insert, List.mem_cons]
    constructor
    · rintro ((h | ⟨rfl, hno⟩) | ⟨hq, hno⟩)
      · exact .inl h
      · exact .inr ⟨.inl rfl, hno⟩
      · exact .inr ⟨.inr hq, fun x hx => hno x (.inl hx)⟩
    · rintro (h | ⟨rfl | hq, hno⟩)
      · exact .inl (.inl h)
      · exact .inl (.inr ⟨rfl, hno⟩)
      · refine .inr ⟨hq, fun x hx => ?_⟩
        rcases hx with hx | ⟨rfl, -⟩
        · exact hno x hx
        · exact fun heq => hp (List.mem_map.2 ⟨q, hq, heq.symm⟩)

theorem PinnedPIDSet.nodup_foldl_insert {l : List PinnedPID} {s : PinnedPIDSet}
    (h : (s.map (·.pid)).Nodup) : ((l.foldl PinnedPIDSet.insert s).map (·.pid)).Nodup := by
  induction l generalizing s with
  | nil => exact h
  | cons p l ih => exact ih (PinnedPIDSet.nodup_insert h)

theorem nodup_tempPins (start : Nat) (vs : List NetVertex) :
    ((tempPins start vs).map (·.pid)).Nodup := by
  have hpids : (tempPins start vs).map (·.pid) = (vs.zipIdx start).map fun x => tempPid x.2 := by
    rw [tempPins, List.map_map]
    rfl
  have hnum : ((tempPins start vs).map (·.pid)).map PID.num = List.range' start vs.length := by
    rw [hpids, List.map_map, ← List.zipIdx_map_snd]
    rfl
  exact List.Nodup.of_map PID.num (hnum ▸ List.nodup_range')

theorem pairwise_disjoint (h : NodesDisjoint net agg) :
    (viewPids net agg).pids.Pairwise Disjoint := by
  obtain ⟨hnodup, hrecord⟩ := @foundPids_pids net.doCopyProperties (viewRecords agg)
  refine (List.Nodup.of_map _ hnodup).pairwise_of_forall_ne fun p hp q hq hne v hv hv' => ?_
  obtain ⟨e, he, hpid, hverts⟩ := hrecord p hp
  obtain ⟨e', he', hpid', hverts'⟩ := hrecord q hq
  rw [← hverts] at hv
  rw [← hverts'] at hv'
  refine h e he e' he' ?_ v hv hv'
  rintro rfl
  exact hne (List.inj_on_of_nodup_map hnodup hp hq (hpid.symm.trans hpid'))

theorem partition_viewPids (net : NetState) (agg : PIDAggregation) :
    Partition net agg (viewPids net agg) := by
  have hext : ∀ e, (recordPid net.doCopyProperties e).external = true ↔
      ∃ v ∈ recordVertices net.doCopyProperties e.2, net.getExternal v = some true := by
    intro e
    simp only [recordPid, List.any_eq_true, Std.ExtTreeSet.mem_toList]
    refine exists_congr fun v => and_congr_right fun _ => ?_
    change (net.getExternal v).getD false = true ↔ _
    cases net.getExternal v <;> simp
  have heta : ∀ e b, (recordPid net.doCopyProperties e).external = b →
      recordPid net.doCopyProperties e = ⟨e.1.isp, e.1.num, b⟩ := by
    rintro e b rfl
    rfl
  refine ⟨fun pid => ?_, fun pid => ?_⟩
  · rw [viewPids, (mem_foundPids pid).1]
    constructor
    · rintro ⟨hpid, e, he, rfl⟩
      refine ⟨e, he, heta e false hpid, fun v hv htrue => ?_⟩
      rw [(hext e).2 ⟨v, hv, htrue⟩] at hpid
      cases hpid
    · rintro ⟨e, he, rfl, hno⟩
      have hfalse : (recordPid net.doCopyProperties e).external = false := by
        rw [Bool.eq_false_iff, ne_eq, hext]
        rintro ⟨v, hv, htrue⟩
        exact hno v hv htrue
      exact ⟨rfl, e, he, heta e false hfalse⟩
  · rw [viewPids, (mem_foundPids pid).2.1]
    constructor
    · rintro ⟨hpid, e, he, rfl⟩
      exact ⟨e, he, heta e true hpid, (hext e).1 hpid⟩
    · rintro ⟨e, he, rfl, hyes⟩
      exact ⟨rfl, e, he, heta e true ((hext e).2 hyes)⟩

/-! ## The passes -/

section

variable {cur net₂ net₃ : NetState} {agg₂ : PinnedPIDSet}

theorem mem_agg_pinned (hall : AggregatedAll cur (viewPids net agg).pids net₂ agg₂) {x : NetVertex} :
    x ∈ pinnedVertices agg₂ ↔ ∃ q ∈ agg₂, q.getVertex = x := by
  rw [mem_pinnedVertices]
  refine exists_congr fun q => and_congr_right fun hq => ?_
  rw [hall.single q hq, mem_ofVertex, PinnedPID.getVertex_ofVertex, eq_comm]

theorem agg_pid (hall : AggregatedAll cur (viewPids net agg).pids net₂ agg₂) {q : PinnedPID}
    (hq : q ∈ agg₂) : ∃ e ∈ viewRecords agg, recordPid net.doCopyProperties e = q.pid := by
  obtain ⟨p, hp, hpid⟩ := List.mem_map.1 (hall.perm.mem_iff.1 (List.mem_map.2 ⟨q, hq, rfl⟩))
  obtain ⟨e, he, hrec, -⟩ := foundPids_pids.2 p hp
  exact ⟨e, he, hrec.trans hpid⟩

theorem exists_agg (hne : Resolved net agg)
    (hall : AggregatedAll cur (viewPids net agg).pids net₂ agg₂) {e : PID × PIDRecord}
    (he : e ∈ viewRecords agg) : ∃ q ∈ agg₂, q.pid = recordPid net.doCopyProperties e := by
  obtain ⟨p, hp, hpid⟩ := exists_pinned hne he
  obtain ⟨q, hq, hqp⟩ := List.mem_map.1 (hall.perm.mem_iff.2 (List.mem_map.2 ⟨p, hp, rfl⟩))
  exact ⟨q, hq, hqp.trans hpid⟩

/-- The vertices that get temporary PIDs are the internal vertices that are left over. -/
theorem length_temps (htouched : Retouched net.doCopyProperties cur)
    (hall : AggregatedAll cur (viewPids net agg).pids net₂ agg₂) :
    (temps .ignore net₂ agg₂).length = (leftOver net agg).length := by
  refine List.Perm.length_eq ?_
  refine (List.perm_ext_iff_of_nodup ((nodup_getNodes _).filter _)
    ((nodup_getNodes _).filter _)).2 fun x => ?_
  rw [List.mem_filter, List.mem_filter, decide_eq_true_eq, decide_eq_true_eq, mem_getNodes,
    mem_getNodes]
  constructor
  · rintro ⟨hx, hpinned, hext, -⟩
    rcases hall.cover x hx with hq | ⟨hx₀, hleft⟩
    · exact absurd ((mem_agg_pinned hall).2 hq) hpinned
    · refine ⟨(htouched.mem_verts x).1 hx₀, ?_, hleft⟩
      rw [← htouched.external, getExternal_eq, ← (hall.left x hx₀ hleft).1, ← getExternal_eq]
      exact hext
  · rintro ⟨hx, hext, hleft⟩
    have hx₀ := (htouched.mem_verts x).2 hx
    obtain ⟨htags, hno⟩ := hall.left x hx₀ hleft
    refine ⟨?_, ?_, ?_, rfl⟩
    · rw [mem_verts_iff_tags, htags, ← mem_verts_iff_tags]
      exact hx₀
    · rw [mem_agg_pinned hall]
      rintro ⟨q, hq, hqx⟩
      exact hno q hq hqx
    · rw [getExternal_eq, htags, ← getExternal_eq, htouched.external]
      exact hext

theorem temps_remove : temps .remove net₂ agg₂ = [] := by
  refine List.filter_eq_nil_iff.2 fun x _ => ?_
  simp [IsTemp]

/-- A vertex that is left in the end is aggregated or has a temporary PID. -/
theorem final_vertex (hall : AggregatedAll cur (viewPids net agg).pids net₂ agg₂)
    {action : ExtraNodeAction} (hextra : ExtraDone action { netOrig := net, net := net₂ } agg₂ net₃)
    {x : NetVertex} (hx : x ∈ net₃.graph.verts) :
    (∃ q ∈ agg₂, q.getVertex = x) ∨ (action = .ignore ∧ x ∈ temps action net₂ agg₂ ∧
      net₃.getExternal x = some false) := by
  obtain ⟨hx₂, hnot⟩ := (hextra.verts x).1 hx
  by_cases hpinned : x ∈ pinnedVertices agg₂
  · exact .inl ((mem_agg_pinned hall).1 hpinned)
  · obtain ⟨b, hb⟩ := mem_verts_iff_external.1 hx₂
    refine .inr ?_
    cases b with
    | true => exact absurd ⟨hpinned, .inl hb⟩ hnot
    | false =>
      cases action with
      | remove => exact absurd ⟨hpinned, .inr rfl⟩ hnot
      | ignore =>
        refine ⟨rfl, ?_, (hextra.external x hx).trans hb⟩
        refine List.mem_filter.2 ⟨mem_getNodes.2 hx₂, ?_⟩
        exact decide_eq_true ⟨hpinned, hb, rfl⟩

/-- An aggregated vertex is left in the end, with its PID. -/
theorem final_agg (hall : AggregatedAll cur (viewPids net agg).pids net₂ agg₂)
    (htagged : Tagged net₂ agg₂) {action : ExtraNodeAction}
    (hextra : ExtraDone action { netOrig := net, net := net₂ } agg₂ net₃) {q : PinnedPID}
    (hq : q ∈ agg₂) : net₃.getPid q.getVertex = some q.pid := by
  have hpinned : q.getVertex ∈ pinnedVertices agg₂ := (mem_agg_pinned hall).2 ⟨q, hq, rfl⟩
  have hmem : q.getVertex ∈ net₃.graph.verts :=
    (hextra.verts _).2 ⟨hall.alive q hq, fun he => he.1 hpinned⟩
  have hno : q.getVertex ∉ temps action net₂ agg₂ := fun ht =>
    (of_decide_eq_true (List.mem_filter.1 ht).2 : IsTemp action net₂ agg₂ q.getVertex).1 hpinned
  rw [hextra.other _ hmem hno, getPid_eq, htagged.tags q hq]
  rfl

/-- A vertex with a temporary PID is left in the end. -/
theorem final_temp {action : ExtraNodeAction}
    (hextra : ExtraDone action { netOrig := net, net := net₂ } agg₂ net₃) {x : NetVertex}
    (hx : x ∈ temps action net₂ agg₂) : x ∈ net₃.graph.verts ∧ x ∉ pinnedVertices agg₂ := by
  obtain ⟨hnode, htemp⟩ := List.mem_filter.1 hx
  have htemp : IsTemp action net₂ agg₂ x := of_decide_eq_true htemp
  refine ⟨(hextra.verts x).2 ⟨mem_getNodes.1 hnode, ?_⟩, htemp.1⟩
  rintro ⟨-, he | he⟩
  · rw [htemp.2.1] at he
    cases he
  · rw [htemp.2.2] at he
    cases he

theorem oneToOne_of_noTempPid (hall : AggregatedAll cur (viewPids net agg).pids net₂ agg₂)
    (htagged : Tagged net₂ agg₂) {action : ExtraNodeAction}
    (hextra : ExtraDone action { netOrig := net, net := net₂ } agg₂ net₃)
    (hfree : ∀ p ∈ tempPins 0 (temps action net₂ agg₂), ∀ q ∈ agg₂, q.pid ≠ p.pid) :
    OneToOne net₃ ((tempPins 0 (temps action net₂ agg₂)).foldl PinnedPIDSet.insert agg₂) := by
  have hmem : ∀ p, p ∈ (tempPins 0 (temps action net₂ agg₂)).foldl PinnedPIDSet.insert agg₂ ↔
      p ∈ agg₂ ∨ p ∈ tempPins 0 (temps action net₂ agg₂) := fun p => by
    rw [PinnedPIDSet.mem_foldl_insert (nodup_tempPins _ _)]
    exact or_congr_right (and_iff_left_of_imp fun hp => hfree p hp)
  have hnodup : (temps action net₂ agg₂).Nodup := (nodup_getNodes net₂).filter _
  have hapart : ∀ p ∈ agg₂, ∀ q ∈ tempPins 0 (temps action net₂ agg₂), p.getVertex ≠ q.getVertex := by
    intro p hp q hq heq
    obtain ⟨i, x, hx, rfl⟩ := mem_tempPins.1 hq
    rw [PinnedPID.getVertex_ofVertex] at heq
    exact (final_temp hextra (List.mem_of_getElem? hx)).2 ((mem_agg_pinned hall).2 ⟨p, hp, heq⟩)
  have hpids : (((tempPins 0 (temps action net₂ agg₂)).foldl PinnedPIDSet.insert agg₂).map
      (·.pid)).Nodup :=
    PinnedPIDSet.nodup_foldl_insert (hall.perm.nodup_iff.2 foundPids_pids.1)
  refine ⟨fun p hp => ?_, fun p hp => ?_, fun x hx => ?_, fun p hp q hq heq => ?_,
    fun p hp q hq heq => List.inj_on_of_nodup_map hpids hp hq heq⟩
  · rcases (hmem p).1 hp with hp | hp
    · intro v
      rw [hall.single p hp, mem_ofVertex, PinnedPID.getVertex_ofVertex]
    · obtain ⟨i, x, -, rfl⟩ := mem_tempPins.1 hp
      intro v
      rw [mem_ofVertex, PinnedPID.getVertex_ofVertex]
  · rcases (hmem p).1 hp with hp | hp
    · exact final_agg hall htagged hextra hp
    · exact hextra.temp p hp
  · rcases final_vertex hall hextra hx with ⟨q, hq, hqx⟩ | ⟨-, htemp, -⟩
    · exact ⟨q, (hmem q).2 (.inl hq), hqx⟩
    · obtain ⟨i, hi, hix⟩ := List.getElem_of_mem htemp
      refine ⟨.ofVertex (tempPid (0 + i)) x, (hmem _).2 (.inr ?_), PinnedPID.getVertex_ofVertex _ _⟩
      exact mem_tempPins.2 ⟨i, x, List.getElem?_eq_some_iff.2 ⟨hi, hix⟩, rfl⟩
  · rcases (hmem p).1 hp with hp | hp
    · rcases (hmem q).1 hq with hq | hq
      · exact htagged.inj p hp q hq heq
      · exact absurd heq (hapart p hp q hq)
    · rcases (hmem q).1 hq with hq | hq
      · exact absurd heq.symm (hapart q hq p hp)
      · -- the same vertex has the same number
        obtain ⟨i, x, hx, rfl⟩ := mem_tempPins.1 hp
        obtain ⟨j, y, hy, rfl⟩ := mem_tempPins.1 hq
        rw [PinnedPID.getVertex_ofVertex, PinnedPID.getVertex_ofVertex] at heq
        subst heq
        obtain ⟨hi, -⟩ := List.getElem?_eq_some_iff.1 hx
        rw [(List.getElem?_inj hi hnodup).1 (hx.trans hy.symm)]

/-- A PID of the view with a temporary number leaves a vertex without a pinned PID. -/
theorem not_oneToOne (hall : AggregatedAll cur (viewPids net agg).pids net₂ agg₂)
    {action : ExtraNodeAction} (hextra : ExtraDone action { netOrig := net, net := net₂ } agg₂ net₃)
    {i : Nat} (hi : i < (temps action net₂ agg₂).length) {q : PinnedPID} (hq : q ∈ agg₂)
    (hpid : q.pid = tempPid i) :
    ¬ OneToOne net₃ ((tempPins 0 (temps action net₂ agg₂)).foldl PinnedPIDSet.insert agg₂) := by
  intro h
  have hget : (temps action net₂ agg₂)[i]? = some (temps action net₂ agg₂)[i] :=
    List.getElem?_eq_getElem hi
  obtain ⟨hx, hnot⟩ := final_temp hextra (List.mem_of_getElem? hget)
  have hp := hextra.temp (.ofVertex (tempPid (0 + i)) (temps action net₂ agg₂)[i])
    (mem_tempPins.2 ⟨i, _, hget, rfl⟩)
  rw [PinnedPID.getVertex_ofVertex, PinnedPID.pid_ofVertex, Nat.zero_add] at hp
  obtain ⟨p, hpmem, hpx⟩ := h.covered _ hx
  have hppid := h.tagged p hpmem
  rw [hpx, hp] at hppid
  have hqmem := (PinnedPIDSet.mem_foldl_insert (nodup_tempPins 0 (temps action net₂ agg₂))).2
    (.inl hq)
  obtain rfl := h.pid p hpmem q hqmem ((Option.some.inj hppid).symm.trans hpid.symm)
  exact hnot ((mem_agg_pinned hall).2 ⟨p, hq, hpx⟩)

end

/-! ## The correspondence -/

/-- The three passes on a network state whose edges end in vertices: they leave the topology that they
should if no temporary PID is a PID of the view, and else they do not. -/
theorem prepare_topology (hclosed : net.graph.Closed) (hne : Resolved net agg)
    (hdisj : NodesDisjoint net agg)
    (hrun : prepare libs net view agg = .ok (some (u, found, pids))) :
    Topology net view agg u found pids ↔
      (view.extraNodeAction = .ignore → NoTempPid net agg) := by
  have hpair := pairwise_disjoint hdisj
  rcases @prepare_ok _ view _ libs hclosed hne (hpair.imp .inl) with
    hnone | ⟨u', pids', hok, hprep⟩
  · rw [hnone] at hrun
    cases hrun
  obtain ⟨rfl, hres⟩ := Prod.mk.inj (Option.some.inj (Except.ok.inj (hok.symm.trans hrun)))
  obtain ⟨rfl, rfl⟩ := Prod.mk.inj hres
  obtain ⟨horig, cur, net₂, agg₂, htouched, hall, hextra, rfl⟩ := hprep
  have htagged := hall.tagged hpair
  have hall' : ∀ q ∈ agg₂, q.pid ∈ (viewPids net agg).all := fun q hq => by
    rw [viewPids, (mem_foundPids q.pid).2.2]
    exact agg_pid hall hq
  have hkeep : ∀ q ∈ agg₂, q ∈ (tempPins 0 (temps view.extraNodeAction net₂ agg₂)).foldl
      PinnedPIDSet.insert agg₂ := fun q hq =>
    (PinnedPIDSet.mem_foldl_insert (nodup_tempPins _ _)).2 (.inl hq)
  constructor
  · intro htop haction i hi e he hpid
    rw [haction] at hextra
    have hone := htop.corresponds
    rw [haction] at hone
    obtain ⟨q, hq, hqpid⟩ := exists_agg hne hall he
    refine not_oneToOne hall hextra ?_ hq (hqpid.trans hpid) hone
    rwa [length_temps htouched hall]
  · intro hcond
    refine ⟨?_, partition_viewPids net agg, fun v hv => ?_, fun haction v hv => ?_, horig⟩
    · refine oneToOne_of_noTempPid hall htagged hextra fun p hp q hq heq => ?_
      obtain ⟨i, x, hx, rfl⟩ := mem_tempPins.1 hp
      have hi : i < (temps view.extraNodeAction net₂ agg₂).length :=
        (List.getElem?_eq_some_iff.1 hx).1
      cases haction : view.extraNodeAction with
      | remove =>
        rw [haction, temps_remove] at hi
        cases hi
      | ignore =>
        rw [haction, length_temps htouched hall] at hi
        obtain ⟨e, he, hpid⟩ := agg_pid hall hq
        rw [PinnedPID.pid_ofVertex, Nat.zero_add] at heq
        exact hcond haction i hi e he (hpid.trans heq)
    · have hmem : v ∈ u'.net.graph.verts := mem_verts_iff_external.2 ⟨true, hv⟩
      rcases final_vertex hall hextra hmem with ⟨q, hq, hqv⟩ | ⟨-, -, hfalse⟩
      · exact ⟨q, hkeep q hq, hall' q hq, hqv⟩
      · rw [hv] at hfalse
        cases hfalse
    · rcases final_vertex hall hextra hv with ⟨q, hq, hqv⟩ | ⟨hignore, -, -⟩
      · exact ⟨q, hkeep q hq, hall' q hq, hqv⟩
      · rw [haction] at hignore
        cases hignore

/-- One PID, at the first vertex of `lineNet`. -/
def oneAgg (pid : PID) : PIDAggregation :=
  (PIDAggregation.empty.add "x" pid ((∅ : StdSet String).insert "a")).2

/-- A view that keeps the vertices without a PID. -/
def ignoreView : View := { View.new "" with extraNodeAction := .ignore }

open PIDRouting

theorem closed_lineNet : lineNet.graph.Closed where
  fresh v hv := by
    rcases lineNet_mem.1 hv with rfl | rfl <;> decide
  ends u v he := by
    obtain ⟨rfl, rfl⟩ := lineNet_edge.1 he
    exact ⟨lineNet_mem.2 (.inl rfl), lineNet_mem.2 (.inr rfl)⟩

theorem viewRecords_oneAgg (pid : PID) :
    viewRecords (oneAgg pid) = [(pid, ⟨"x", (∅ : StdSet String).insert "a"⟩)] := rfl

theorem resolved_oneAgg (pid : PID) : Resolved lineNet (oneAgg pid) := by
  intro e he
  rw [viewRecords_oneAgg, List.mem_singleton] at he
  subst he
  change (recordVertices lineNet.doCopyProperties ⟨"x", (∅ : StdSet String).insert "a"⟩).isEmpty =
    false
  decide

theorem nodesDisjoint_oneAgg (pid : PID) : NodesDisjoint lineNet (oneAgg pid) := by
  intro e he e' he' hne
  rw [viewRecords_oneAgg, List.mem_singleton] at he he'
  exact absurd (he.trans he'.symm) hne

/-- A view with one PID of the network is prepared. -/
def lineChecks : Bool :=
  match prepare lineLibs lineNet ignoreView (oneAgg (linePid 0)) with
  | .ok (some _) => true
  | _ => false

theorem prepare_topology_line :
    ∃ u found pids, prepare lineLibs lineNet ignoreView (oneAgg (linePid 0)) =
        .ok (some (u, found, pids)) ∧
      Topology lineNet ignoreView (oneAgg (linePid 0)) u found pids := by
  have hok : lineChecks = true := by decide +kernel
  unfold lineChecks at hok
  split at hok
  · next res hrun =>
    obtain ⟨u, found, pids⟩ := res
    refine ⟨u, found, pids, hrun, (prepare_topology closed_lineNet (resolved_oneAgg _)
      (nodesDisjoint_oneAgg _) hrun).2 fun _ i _ e he => ?_⟩
    rw [viewRecords_oneAgg, List.mem_singleton] at he
    subst he
    intro heq
    have hisp : "isp" = "temp.pid" := congrArg PID.isp heq
    exact absurd hisp (by decide)
  · cases hok

/-- With the PID 0 of `temp.pid` in the view, the second vertex is not pinned. -/
def tempPidChecks : Bool :=
  match prepare lineLibs lineNet ignoreView (oneAgg (tempPid 0)) with
  | .ok (some (u, _, pids)) =>
    decide (1 ∈ u.net.graph.verts) && pids.all fun p => decide (p.getVertex ≠ 1)
  | _ => false

/-- With the PID 0 of `temp.pid` in the view, the second vertex gets the same PID and is not pinned. -/
theorem prepare_shares_temp_pid :
    ¬ ∀ (libs : ViewLibs) (net : NetState) (view : View) (agg : PIDAggregation) (u : ViewUpdate)
      (found : FoundPids) (pids : PinnedPIDSet), net.graph.Closed → Resolved net agg →
      NodesDisjoint net agg → prepare libs net view agg = .ok (some (u, found, pids)) →
      Topology net view agg u found pids := by
  intro h
  have hcheck : tempPidChecks = true := by decide +kernel
  unfold tempPidChecks at hcheck
  split at hcheck
  · next u found pids hrun =>
    rw [Bool.and_eq_true, decide_eq_true_eq, List.all_eq_true] at hcheck
    have htop := h lineLibs lineNet ignoreView (oneAgg (tempPid 0)) u found pids closed_lineNet
      (resolved_oneAgg _) (nodesDisjoint_oneAgg _) hrun
    obtain ⟨p, hp, hpv⟩ := htop.corresponds.covered 1 hcheck.1
    exact of_decide_eq_true (hcheck.2 p hp) hpv
  · cases hcheck

end Alto.ViewUpdate
