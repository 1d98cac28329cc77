import Alto.Lib.Loops
import Alto.Lib.MapEntries
import Alto.Portal.ViewUpdate
import Alto.Verify.NetGraph
import Alto.Verify.PIDRoutes

/-!
# The topology of a view

What `find_pids`, `aggregate_topology` and `handle_extra_nodes` make of a copied network state whose
nodes belong to the PIDs of an aggregation.
-/

namespace Alto.ViewUpdate

open Lib NetState

/-! ## Vertices that are in the graph -/

@[simp] theorem orFault_some {T : Type} (fault : UpdateFault) (x : T) :
    orFault fault (some x) = .ok x := rfl

theorem mapM_orFault {A B : Type} {fault : UpdateFault} {f : A → Option B} {l : List A} (dflt : B)
    (h : ∀ a ∈ l, ∃ b, f a = some b) :
    l.mapM (fun a => orFault fault (f a)) = .ok (l.map fun a => (f a).getD dflt) := by
  induction l with
  | nil => rfl
  | cons a l ih =>
    obtain ⟨b, hb⟩ := h a List.mem_cons_self
    rw [List.mapM_cons, ih fun x hx => h x (List.mem_cons_of_mem _ hx), hb, List.map_cons, hb]
    rfl

theorem foldlM_orFault {A S : Type} {fault : UpdateFault} {f : S → A → Option S} {l : List A}
    {s s' : S} (h : l.foldlM f s = some s') :
    l.foldlM (fun s a => orFault fault (f s a)) s = .ok s' := by
  induction l generalizing s with
  | nil =>
    obtain rfl := Option.some.inj h
    rfl
  | cons a l ih =>
    rw [List.foldlM_cons] at h ⊢
    obtain ⟨t, ht, h⟩ := Option.bind_eq_some_iff.1 h
    rw [ht]
    exact ih h

theorem PinnedPID.ofSet_eq {pid : PID} {vertices : StdSet NetVertex}
    (h : vertices.isEmpty = false) : PinnedPID.ofSet pid vertices = some ⟨pid, vertices, h⟩ :=
  dif_pos h

theorem PinnedPIDSet.mem_insert {pids : PinnedPIDSet} {p q : PinnedPID} :
    q ∈ pids.insert p ↔ q ∈ pids ∨ (q = p ∧ ∀ x ∈ pids, x.pid ≠ p.pid) := by
  rw [PinnedPIDSet.insert]
  split
  · next x hx =>
    obtain ⟨hmem, hpid⟩ := PinnedPIDSet.pid_of_find hx
    refine ⟨.inl, ?_⟩
    rintro (h | ⟨-, hno⟩)
    · exact h
    · exact absurd hpid (hno x hmem)
  · next hnone =>
    have hno : ∀ x ∈ pids, x.pid ≠ p.pid := fun x hx => by
      simpa using List.find?_eq_none.1 hnone x hx
    rw [List.mem_cons]
    constructor
    · rintro (rfl | h)
      · exact .inr ⟨rfl, hno⟩
      · exact .inl h
    · rintro (h | ⟨rfl, -⟩)
      · exact .inr h
      · exact .inl rfl

theorem PinnedPIDSet.nodup_insert {pids : PinnedPIDSet} {p : PinnedPID}
    (h : (pids.map (·.pid)).Nodup) : ((pids.insert p).map (·.pid)).Nodup := by
  rw [PinnedPIDSet.insert]
  split
  · exact h
  · next hnone =>
    refine List.nodup_cons.2 ⟨fun hmem => ?_, h⟩
    obtain ⟨x, hx, hpid⟩ := List.mem_map.1 hmem
    have hne := List.find?_eq_none.1 hnone x hx
    simp [hpid] at hne

/-! ## Finding the PIDs -/

variable {net net' : NetState} {u : ViewUpdate} {records : List (PID × PIDRecord)}

/-- The PID of a record: external if one of its nodes is. -/
def recordPid (net : NetState) (entry : PID × PIDRecord) : PID :=
  ⟨entry.1.isp, entry.1.num,
    (recordVertices net entry.2).toList.any fun v => (net.getExternal v).getD false⟩

/-- The PIDs with one more record; a PID that an earlier record has keeps the nodes of that one. -/
def addFound (net : NetState) (found : FoundPids) (entry : PID × PIDRecord) : FoundPids where
  internal :=
    if (recordPid net entry).external then found.internal
    else found.internal.insert (recordPid net entry)
  external :=
    if (recordPid net entry).external then found.external.insert (recordPid net entry)
    else found.external
  all := found.all.insert (recordPid net entry)
  pids :=
    match PinnedPID.ofSet (recordPid net entry) (recordVertices net entry.2) with
    | none => found.pids
    | some p => found.pids.insert p

/-- The PIDs of a view. -/
def foundPids (net : NetState) (records : List (PID × PIDRecord)) : FoundPids :=
  records.foldl (addFound net) {}

theorem foundPids_concat (e : PID × PIDRecord) :
    foundPids net (records ++ [e]) = addFound net (foundPids net records) e := by
  rw [foundPids, List.foldl_append]
  rfl

theorem mem_foundPids (pid : PID) :
    (pid ∈ (foundPids net records).internal ↔
        pid.external = false ∧ ∃ e ∈ records, recordPid net e = pid) ∧
      (pid ∈ (foundPids net records).external ↔
        pid.external = true ∧ ∃ e ∈ records, recordPid net e = pid) ∧
      (pid ∈ (foundPids net records).all ↔ ∃ e ∈ records, recordPid net e = pid) := by
  induction records using List.reverseRecOn with
  | nil =>
    simp [foundPids]
  | append_singleton records e ih =>
    obtain ⟨hint, hext, hall⟩ := ih
    have hmem : (∃ x ∈ records ++ [e], recordPid net x = pid) ↔
        recordPid net e = pid ∨ ∃ x ∈ records, recordPid net x = pid := by
      simp only [List.mem_append, List.mem_singleton, or_and_right, exists_or, exists_eq_left]
      exact or_comm
    rw [foundPids_concat, hmem]
    refine ⟨?_, ?_, ?_⟩
    · simp only [addFound]
      split
      · next h =>
        rw [hint]
        refine and_congr_right fun hp => ⟨.inr, fun h' => h'.resolve_left ?_⟩
        rintro rfl
        rw [h] at hp
        cases hp
      · next h =>
        rw [StdSet.mem_insert, hint]
        constructor
        · rintro (rfl | ⟨hp, hx⟩)
          · exact ⟨by simpa using h, .inl rfl⟩
          · exact ⟨hp, .inr hx⟩
        · rintro ⟨hp, rfl | hx⟩
          · exact .inl rfl
          · exact .inr ⟨hp, hx⟩
    · simp only [addFound]
      split
      · next h =>
        rw [StdSet.mem_insert, hext]
        constructor
        · rintro (rfl | ⟨hp, hx⟩)
          · exact ⟨h, .inl rfl⟩
          · exact ⟨hp, .inr hx⟩
        · rintro ⟨hp, rfl | hx⟩
          · exact .inl rfl
          · exact .inr ⟨hp, hx⟩
      · next h =>
        rw [hext]
        refine and_congr_right fun hp => ⟨.inr, fun h' => h'.resolve_left ?_⟩
        rintro rfl
        exact h hp
    · simp only [addFound]
      rw [StdSet.mem_insert, hall]

/-- The pinned PIDs of the records are distinct, and each is that of a record. -/
theorem foundPids_pids :
    ((foundPids net records).pids.map (·.pid)).Nodup ∧
      ∀ p ∈ (foundPids net records).pids, ∃ e ∈ records, recordPid net e = p.pid ∧
        recordVertices net e.2 = p.vertices := by
  induction records using List.reverseRecOn with
  | nil => exact ⟨List.nodup_nil, fun p hp => absurd hp List.not_mem_nil⟩
  | append_singleton records e ih =>
    have hold : ∀ p ∈ (foundPids net records).pids, ∃ e' ∈ records ++ [e],
        recordPid net e' = p.pid ∧ recordVertices net e'.2 = p.vertices := fun p hp =>
      let ⟨e', he', hx⟩ := ih.2 p hp
      ⟨e', List.mem_append_left _ he', hx⟩
    rw [foundPids_concat]
    simp only [addFound]
    split
    · exact ⟨ih.1, hold⟩
    · next q hq =>
      refine ⟨PinnedPIDSet.nodup_insert ih.1, fun p hp => ?_⟩
      rcases PinnedPIDSet.mem_insert.1 hp with hp | ⟨rfl, -⟩
      · exact hold p hp
      · rw [PinnedPID.ofSet] at hq
        split at hq
        · obtain rfl := Option.some.inj hq
          exact ⟨e, List.mem_append_right _ List.mem_cons_self, rfl, rfl⟩
        · cases hq

/-- Every record with a node has its PID pinned. -/
theorem exists_pinned (hne : ∀ e ∈ records, (recordVertices net e.2).isEmpty = false)
    {e : PID × PIDRecord} (he : e ∈ records) :
    ∃ p ∈ (foundPids net records).pids, p.pid = recordPid net e := by
  induction records using List.reverseRecOn with
  | nil => cases he
  | append_singleton records e' ih =>
    have hempty := hne e' (List.mem_append_right _ List.mem_cons_self)
    have hkeep : ∀ p ∈ (foundPids net records).pids, p ∈ (foundPids net (records ++ [e'])).pids := by
      intro p hp
      rw [foundPids_concat]
      simp only [addFound, PinnedPID.ofSet_eq hempty]
      exact PinnedPIDSet.mem_insert.2 (.inl hp)
    rcases List.mem_append.1 he with he | he
    · obtain ⟨p, hp, hpid⟩ := ih (fun x hx => hne x (List.mem_append_left _ hx)) he
      exact ⟨p, hkeep p hp, hpid⟩
    · obtain rfl := List.mem_singleton.1 he
      by_cases hno : ∀ x ∈ (foundPids net records).pids, x.pid ≠ recordPid net e
      · refine ⟨⟨recordPid net e, recordVertices net e.2, hempty⟩, ?_, rfl⟩
        rw [foundPids_concat]
        simp only [addFound, PinnedPID.ofSet_eq hempty]
        exact PinnedPIDSet.mem_insert.2 (.inr ⟨rfl, hno⟩)
      · push Not at hno
        obtain ⟨x, hx, hpid⟩ := hno
        exact ⟨x, hkeep x hx, hpid⟩

/-- Only the PIDs of vertices have changed. -/
structure Retouched (net net' : NetState) : Prop where
  external : ∀ v, net'.getExternal v = net.getExternal v
  edges : net'.graph.edges = net.graph.edges
  next : net'.graph.next = net.graph.next
  names : net'.nameVertMap = net.nameVertMap

theorem Retouched.refl (net : NetState) : Retouched net net := ⟨fun _ => rfl, rfl, rfl, rfl⟩

theorem Retouched.trans {net'' : NetState} (h : Retouched net net') (h' : Retouched net' net'') :
    Retouched net net'' :=
  ⟨fun v => (h'.external v).trans (h.external v), h'.edges.trans h.edges, h'.next.trans h.next,
    h'.names.trans h.names⟩

theorem mem_verts_iff_external {v : NetVertex} :
    v ∈ net.graph.verts ↔ ∃ b, net.getExternal v = some b := by
  rw [mem_verts_iff_tags, getExternal_eq]
  constructor
  · rintro ⟨t, ht⟩
    exact ⟨t.1, by rw [ht]; rfl⟩
  · rintro ⟨b, hb⟩
    obtain ⟨t, ht, -⟩ := Option.map_eq_some_iff.1 hb
    exact ⟨t, ht⟩

theorem Retouched.mem_verts (h : Retouched net net') (v : NetVertex) :
    v ∈ net'.graph.verts ↔ v ∈ net.graph.verts := by
  rw [mem_verts_iff_external, mem_verts_iff_external, h.external]

theorem Retouched.closed (h : Retouched net net') (hclosed : net.graph.Closed) :
    net'.graph.Closed :=
  Closed.of_mem_verts hclosed h.mem_verts h.edges (Nat.le_of_eq h.next.symm)

theorem Retouched.recordVertices (h : Retouched net net') (record : PIDRecord) :
    recordVertices net' record = recordVertices net record := by
  have hnode : net'.getNode = net.getNode := by
    funext name
    rw [getNode, h.names, getNode]
  rw [ViewUpdate.recordVertices, hnode, ViewUpdate.recordVertices]

theorem setPid_retouched {v : NetVertex} (hv : v ∈ net.graph.verts) (pid : PID) :
    ∃ net', net.setPid v pid = some net' ∧ Retouched net net' ∧
      ∀ x, net'.getPid x = if x = v then some pid else net.getPid x := by
  obtain ⟨t, ht⟩ := mem_verts_iff_tags.1 hv
  obtain ⟨net', hset, htags⟩ := setPid_retagged ht pid
  refine ⟨net', hset, ⟨fun x => ?_, htags.edges, htags.next, htags.names⟩, fun x => ?_⟩
  · rw [getExternal_eq, htags.tags, getExternal_eq]
    split
    · next hx => rw [hx, ht]; rfl
    · rfl
  · rw [getPid_eq, htags.tags, getPid_eq]
    split <;> rfl

theorem setPids_retouched (pid : PID) {vs : List NetVertex} (hvs : ∀ v ∈ vs, v ∈ net.graph.verts) :
    ∃ net', vs.foldlM (fun net v => orFault .deadVertex (net.setPid v pid)) net = .ok net' ∧
      Retouched net net' := by
  obtain ⟨net', hrun, htouched⟩ := foldlM_total
    (P := fun (_ rest : List NetVertex) (cur : NetState) =>
      Retouched net cur ∧ ∀ v ∈ rest, v ∈ net.graph.verts)
    (f := fun (net : NetState) v => orFault UpdateFault.deadVertex (net.setPid v pid))
    (fun _ v rest cur h => by
      obtain ⟨cur', hset, htouched, -⟩ :=
        setPid_retouched ((h.1.mem_verts v).2 (h.2 v List.mem_cons_self)) pid
      exact ⟨cur', by rw [hset]; rfl, h.1.trans htouched,
        fun x hx => h.2 x (List.mem_cons_of_mem _ hx)⟩)
    ⟨.refl net, hvs⟩
  exact ⟨net', hrun, htouched.1⟩

/-- The names of the nodes belong to vertices in the graph. -/
def NamesAlive (net : NetState) : Prop := ∀ name v, net.getNode name = some v → v ∈ net.graph.verts

theorem mem_recordVertices {record : PIDRecord} {v : NetVertex} :
    v ∈ recordVertices net record ↔ ∃ name ∈ record.vertices, net.getNode name = some v := by
  rw [recordVertices, StdSet.mem_foldl_insert, List.mem_filterMap, or_iff_left Std.ExtTreeSet.not_mem_empty]
  simp only [Std.ExtTreeSet.mem_toList]

theorem findRecord_ok (hnames : NamesAlive net) (htouched : Retouched net u.net)
    {found : FoundPids} {entry : PID × PIDRecord}
    (hne : (recordVertices net entry.2).isEmpty = false) :
    ∃ cur, findRecord (u, found) entry = .ok ({ u with net := cur }, addFound net found entry) ∧
      Retouched net cur := by
  have hverts : recordVertices u.net entry.2 = recordVertices net entry.2 :=
    htouched.recordVertices entry.2
  have halive : ∀ v ∈ (recordVertices net entry.2).toList, v ∈ u.net.graph.verts := by
    intro v hv
    obtain ⟨name, -, hname⟩ := mem_recordVertices.1 (Std.ExtTreeSet.mem_toList.1 hv)
    exact (htouched.mem_verts v).2 (hnames name v hname)
  have hmap := @mapM_orFault _ _ .deadVertex u.net.getExternal _ false
    fun v hv => mem_verts_iff_external.1 (halive v hv)
  have hpid : (⟨entry.1.isp, entry.1.num, ((recordVertices net entry.2).toList.map
      fun v => (u.net.getExternal v).getD false).any id⟩ : PID) = recordPid net entry := by
    rw [recordPid, List.any_map]
    simp only [htouched.external]
    rfl
  have hext : ((recordVertices net entry.2).toList.map
      fun v => (u.net.getExternal v).getD false).any id = (recordPid net entry).external :=
    congrArg PID.external hpid
  obtain ⟨cur, hset, hcur⟩ := setPids_retouched (recordPid net entry) halive
  refine ⟨cur, ?_, htouched.trans hcur⟩
  simp only [findRecord, hverts, hmap, bind, Except.bind, hpid, hset, PinnedPID.ofSet_eq hne,
    orFault_some, pure, Except.pure, addFound]
  simp only [hext]

/-- `find_pids` on a state without dead names, if every PID has a node that exists. -/
theorem findPids_ok (hnames : NamesAlive u.net) {agg : PIDAggregation}
    (hne : ∀ e ∈ agg.pidRecords.byPid.toList, (recordVertices u.net e.2).isEmpty = false) :
    ∃ cur, findPids u agg =
        .ok ({ u with net := cur }, foundPids u.net agg.pidRecords.byPid.toList) ∧
      Retouched u.net cur := by
  obtain ⟨s, hrun, -, cur, hcur, htouched⟩ := foldlM_total
    (P := fun done rest (s : ViewUpdate × FoundPids) =>
      (∀ e ∈ rest, (recordVertices u.net e.2).isEmpty = false) ∧
        ∃ cur, s = ({ u with net := cur }, foundPids u.net done) ∧ Retouched u.net cur)
    (f := findRecord) (l := agg.pidRecords.byPid.toList) (s := (u, {}))
    (fun done e rest s h => by
      obtain ⟨hne, cur, rfl, hcur⟩ := h
      obtain ⟨next, hnext, htouched⟩ := @findRecord_ok _ { u with net := cur } hnames hcur
        (foundPids u.net done) _ (hne e List.mem_cons_self)
      refine ⟨_, hnext, fun x hx => hne x (List.mem_cons_of_mem _ hx), next, ?_, htouched⟩
      rw [foundPids_concat])
    ⟨hne, u.net, rfl, .refl _⟩
  exact ⟨cur, by rw [findPids, hrun, hcur], htouched⟩

/-! ## Aggregating the topology -/

/-- The only vertex of a set. -/
def Only (vertices : StdSet NetVertex) (x : NetVertex) : Prop := ∀ v, v ∈ vertices ↔ v = x

/-- Two PIDs that share no node. -/
def Disjoint (p q : PinnedPID) : Prop := ∀ v ∈ p.vertices, v ∉ q.vertices

/-- Two PIDs that share no node, or have one node each, and the same one. -/
def Apart (p q : PinnedPID) : Prop := Disjoint p q ∨ ∃ x, Only p.vertices x ∧ Only q.vertices x

/-- The state between two rounds of `aggregate_topology`: the PIDs that are aggregated, and the ones
that are left. -/
structure Aggregating (net₀ : NetState) (done rest : List PinnedPID) (net : NetState)
    (agg : PinnedPIDSet) : Prop where
  closed : net.graph.Closed
  next : net₀.graph.next ≤ net.graph.next
  old : ∀ p ∈ done ++ rest, ∀ v ∈ p.vertices, v < net₀.graph.next
  waiting : ∀ p ∈ rest, ∀ v ∈ p.vertices, v ∈ net.graph.verts
  pids : agg.map (·.pid) = (done.map (·.pid)).reverse
  single : ∀ q ∈ agg, q = .ofVertex q.pid q.getVertex
  alive : ∀ q ∈ agg, q.getVertex ∈ net.graph.verts
  target : ∀ q ∈ agg, (∃ p ∈ done, Only p.vertices q.getVertex) ∨ net₀.graph.next ≤ q.getVertex
  left : ∀ x ∈ net₀.graph.verts, (∀ p ∈ done ++ rest, x ∉ p.vertices) → net.tags x = net₀.tags x
  cover : ∀ x ∈ net.graph.verts, (∃ q ∈ agg, q.getVertex = x) ∨ (∃ p ∈ rest, x ∈ p.vertices) ∨
    (x ∈ net₀.graph.verts ∧ ∀ p ∈ done ++ rest, x ∉ p.vertices)

/-- With PIDs that share no node, each aggregated vertex keeps the tags it gets. -/
structure Tagged (net : NetState) (agg : PinnedPIDSet) : Prop where
  tags : ∀ q ∈ agg, net.tags q.getVertex = some (q.pid.external, q.pid)
  inj : ∀ q ∈ agg, ∀ q' ∈ agg, q.getVertex = q'.getVertex → q = q'

theorem Only.eq_of_mem {vertices : StdSet NetVertex} {x v : NetVertex} (h : Only vertices x)
    (hv : v ∈ vertices) : v = x := (h v).1 hv

variable {net₀ net₁ net₂ : NetState} {done rest : List PinnedPID} {agg : PinnedPIDSet}
  {p : PinnedPID} {w : NetVertex}

/-- A vertex of an aggregated PID is not among the nodes of another one that is apart. -/
theorem Aggregating.getVertex_eq (h : Aggregating net₀ done (p :: rest) net agg)
    (hapart : ∀ q ∈ done, Apart q p) {q : PinnedPID} (hq : q ∈ agg) (hmem : q.getVertex ∈ p.vertices) :
    Only p.vertices q.getVertex ∧ ∃ p₀ ∈ done, ¬ Disjoint p₀ p := by
  rcases h.target q hq with ⟨p₀, hp₀, honly⟩ | hnew
  · have hshare : ¬ Disjoint p₀ p := fun hd => hd _ ((honly _).2 rfl) hmem
    rcases hapart p₀ hp₀ with hd | ⟨x, hx, hx'⟩
    · exact absurd hd hshare
    · obtain rfl := hx'.eq_of_mem hmem
      exact ⟨hx', p₀, hp₀, hshare⟩
  · have hold := h.old p (List.mem_append_right _ List.mem_cons_self) _ hmem
    exact absurd hold (Nat.not_lt.2 hnew)

theorem Aggregating.insert_eq (h : Aggregating net₀ done rest net agg)
    (hpid : p.pid ∉ done.map (·.pid)) :
    agg.insert (.ofVertex p.pid w) = .ofVertex p.pid w :: agg := by
  have hnone : agg.find p.pid = none := by
    refine List.find?_eq_none.2 fun x hx => ?_
    have hmem : x.pid ∈ done.map (·.pid) := by
      rw [← List.mem_reverse, ← h.pids]
      exact List.mem_map.2 ⟨x, hx, rfl⟩
    simpa using fun heq : x.pid = p.pid => hpid (heq ▸ hmem)
  rw [PinnedPIDSet.insert, PinnedPID.pid_ofVertex, hnone]

/-- A round of the loop. -/
theorem Aggregating.step (h : Aggregating net₀ done (p :: rest) net agg)
    (hdone : ∀ q ∈ done, Apart q p) (hrest : ∀ q ∈ rest, Apart p q)
    (hpid : p.pid ∉ done.map (·.pid)) (hagg : Aggregated net net₁ p.vertices w)
    (htags : Retagged net₁ net₂ w (p.pid.external, p.pid)) :
    Aggregating net₀ (done ++ [p]) rest net₂ (agg.insert (.ofVertex p.pid w)) := by
  have hverts := htags.mem_verts hagg.alive
  have hall : done ++ [p] ++ rest = done ++ p :: rest := by simp
  -- a vertex other than the new one stays unless it was aggregated
  have hkeep : ∀ x, x ≠ w → x ∉ p.vertices → net₂.tags x = net.tags x := fun x hx hp => by
    rw [htags.tags, if_neg hx, hagg.kept x hx hp]
  have hw : w ∈ net₂.graph.verts := (hverts w).2 hagg.alive
  have halive : ∀ x ∈ net.graph.verts, (x ∈ p.vertices → x = w) → x ∈ net₂.graph.verts := by
    intro x hx hp
    by_cases hxw : x = w
    · exact hxw ▸ hw
    · rw [mem_verts_iff_tags, hkeep x hxw fun hmem => hxw (hp hmem), ← mem_verts_iff_tags]
      exact hx
  have honly : ∀ {x}, Only p.vertices x → x = w := by
    intro x hx
    rcases hagg.target with h' | ⟨-, hno⟩
    · exact (h' x).1 ((hx x).2 rfl)
    · exact absurd ⟨x, hx⟩ hno
  rw [h.insert_eq hpid]
  refine ⟨htags.closed hagg.alive hagg.closed, ?_, ?_, ?_, ?_, ?_, ?_, ?_, ?_, ?_⟩
  · rw [htags.next]
    exact Nat.le_trans h.next hagg.next
  · rw [hall]
    exact h.old
  · intro q hq v hv
    refine halive v (h.waiting q (List.mem_cons_of_mem _ hq) v hv) fun hvp => ?_
    rcases hrest q hq with hd | ⟨x, hx, -⟩
    · exact absurd hv (hd v hvp)
    · exact honly ((hx.eq_of_mem hvp).symm ▸ hx)
  · simp [h.pids]
  · intro q hq
    rcases List.mem_cons.1 hq with rfl | hq
    · rw [PinnedPID.pid_ofVertex, PinnedPID.getVertex_ofVertex]
    · exact h.single q hq
  · intro q hq
    rcases List.mem_cons.1 hq with rfl | hq
    · rwa [PinnedPID.getVertex_ofVertex]
    · exact halive _ (h.alive q hq) fun hmem => honly (h.getVertex_eq hdone hq hmem).1
  · intro q hq
    rcases List.mem_cons.1 hq with rfl | hq
    · rw [PinnedPID.getVertex_ofVertex]
      rcases hagg.target with ht | ⟨ht, -⟩
      · exact .inl ⟨p, List.mem_append_right _ List.mem_cons_self, ht⟩
      · exact .inr (Nat.le_trans h.next ht)
    · rcases h.target q hq with ⟨p₀, hp₀, ht⟩ | ht
      · exact .inl ⟨p₀, List.mem_append_left _ hp₀, ht⟩
      · exact .inr ht
  · intro x hx hleft
    rw [hall] at hleft
    have hxp := hleft p (List.mem_append_right _ List.mem_cons_self)
    have hxw : x ≠ w := by
      rintro rfl
      rcases hagg.target with ht | ⟨ht, -⟩
      · exact hxp ((ht x).2 rfl)
      · have hlt : x ∈ net.graph.verts := by
          rw [mem_verts_iff_tags, h.left x hx hleft, ← mem_verts_iff_tags]
          exact hx
        exact absurd (h.closed.fresh x hlt) (Nat.not_lt.2 ht)
    rw [hkeep x hxw hxp]
    exact h.left x hx hleft
  · intro x hx
    rw [hall]
    by_cases hxw : x = w
    · exact .inl ⟨_, List.mem_cons_self, hxw ▸ PinnedPID.getVertex_ofVertex p.pid w⟩
    · by_cases hxp : x ∈ p.vertices
      · rw [hverts, mem_verts_iff_tags, hagg.out x hxw hxp] at hx
        obtain ⟨t, ht⟩ := hx
        cases ht
      · rw [mem_verts_iff_tags, hkeep x hxw hxp, ← mem_verts_iff_tags] at hx
        rcases h.cover x hx with ⟨q, hq, hqx⟩ | ⟨q, hq, hqx⟩ | hleft
        · exact .inl ⟨q, List.mem_cons_of_mem _ hq, hqx⟩
        · refine .inr (.inl ⟨q, (List.mem_cons.1 hq).resolve_left ?_, hqx⟩)
          rintro rfl
          exact hxp hqx
        · exact .inr (.inr hleft)

theorem Tagged.step (h : Aggregating net₀ done (p :: rest) net agg) (ht : Tagged net agg)
    (hdone : ∀ q ∈ done, Disjoint q p) (hpid : p.pid ∉ done.map (·.pid))
    (hagg : Aggregated net net₁ p.vertices w)
    (htags : Retagged net₁ net₂ w (p.pid.external, p.pid)) :
    Tagged net₂ (agg.insert (.ofVertex p.pid w)) := by
  -- the new vertex is none of those that are aggregated already
  have hold : ∀ q ∈ agg, q.getVertex ≠ w ∧ q.getVertex ∉ p.vertices := by
    intro q hq
    have hnot : q.getVertex ∉ p.vertices := fun hmem => by
      obtain ⟨-, p₀, hp₀, hshare⟩ := h.getVertex_eq (fun x hx => .inl (hdone x hx)) hq hmem
      exact hshare (hdone p₀ hp₀)
    refine ⟨?_, hnot⟩
    intro heq
    rcases hagg.target with ht | ⟨ht, -⟩
    · exact hnot ((ht _).2 heq)
    · exact absurd (h.closed.fresh _ (h.alive q hq)) (Nat.not_lt.2 (heq ▸ ht))
  rw [h.insert_eq hpid]
  refine ⟨fun q hq => ?_, fun q hq q' hq' heq => ?_⟩
  · rcases List.mem_cons.1 hq with rfl | hq
    · rw [PinnedPID.getVertex_ofVertex, PinnedPID.pid_ofVertex, htags.tags, if_pos rfl]
    · obtain ⟨hne, hnot⟩ := hold q hq
      rw [htags.tags, if_neg hne, hagg.kept _ hne hnot]
      exact ht.tags q hq
  · rcases List.mem_cons.1 hq with rfl | hq
    · rcases List.mem_cons.1 hq' with rfl | hq'
      · rfl
      · rw [PinnedPID.getVertex_ofVertex] at heq
        exact absurd heq.symm (hold q' hq').1
    · rcases List.mem_cons.1 hq' with rfl | hq'
      · rw [PinnedPID.getVertex_ofVertex] at heq
        exact absurd heq (hold q hq).1
      · exact ht.inj q hq q' hq' heq

theorem aggregateLoop_ok (libs : ViewLibs) {l : List PinnedPID} {u : ViewUpdate}
    (h : Aggregating net₀ done l u.net agg) (hapart : (done ++ l).Pairwise Apart)
    (hpids : ((done ++ l).map (·.pid)).Nodup) :
    aggregateLoop libs l u agg = .ok none ∨
      ∃ net agg', aggregateLoop libs l u agg = .ok (some ({ u with net }, agg')) ∧
        Aggregating net₀ (done ++ l) [] net agg' ∧
        ((done ++ l).Pairwise Disjoint → Tagged u.net agg → Tagged net agg') := by
  induction l generalizing done u agg with
  | nil =>
    refine .inr ⟨u.net, agg, rfl, ?_, fun _ ht => ht⟩
    rwa [List.append_nil]
  | cons p l ih =>
    have hpid : p.pid ∉ done.map (·.pid) := by
      rw [List.map_append, List.map_cons] at hpids
      exact fun hmem => (List.nodup_append.1 hpids).2.2 _ hmem _ List.mem_cons_self rfl
    obtain ⟨-, hrest, hdone⟩ := List.pairwise_append.1 hapart
    have hcat : done ++ p :: l = (done ++ [p]) ++ l := by simp
    rcases @aggregateNode_ok _ libs.rnd _ (vertexName p.pid) h.closed
      (h.waiting p List.mem_cons_self) with ⟨net₁, hfail⟩ | ⟨w, net₁, hok, hagg⟩
    · refine .inl ?_
      rw [aggregateLoop, hfail]
      rfl
    · obtain ⟨t, ht⟩ := mem_verts_iff_tags.1 hagg.alive
      obtain ⟨net₂, hext, htags₂⟩ := setExternal_retagged ht p.pid.external
      obtain ⟨net₃, hset, htags₃⟩ :=
        setPid_retagged (v := w) ((htags₂.tags w).trans (if_pos rfl)) p.pid
      have htags : Retagged net₁ net₃ w (p.pid.external, p.pid) :=
        ⟨fun x => by rw [htags₃.tags, htags₂.tags]; split <;> rfl,
          htags₃.edges.trans htags₂.edges, htags₃.next.trans htags₂.next,
          htags₃.names.trans htags₂.names⟩
      have hround : aggregateLoop libs (p :: l) u agg =
          aggregateLoop libs l { u with net := net₃ } (agg.insert (.ofVertex p.pid w)) := by
        simp only [aggregateLoop, hok, orFault_some, bind, Except.bind, hext, hset]
      have hstep := h.step (fun q hq => hdone q hq p List.mem_cons_self)
        (fun q hq => (List.pairwise_cons.1 hrest).1 q hq) hpid hagg htags
      rw [hround, hcat]
      rcases ih (u := { u with net := net₃ }) hstep (hcat ▸ hapart) (hcat ▸ hpids) with
        hfail | ⟨net', agg', hrun, hinv, htagged⟩
      · exact .inl hfail
      · refine .inr ⟨net', agg', hrun, hinv, fun hdisj ht₀ => htagged hdisj ?_⟩
        exact Tagged.step h ht₀
          (fun q hq => (List.pairwise_append.1 (hcat ▸ hdisj : (done ++ p :: l).Pairwise Disjoint)).2.2
            q hq p List.mem_cons_self) hpid hagg htags

theorem Disjoint.symm {p q : PinnedPID} (h : Disjoint p q) : Disjoint q p :=
  fun v hv hp => h v hp hv

theorem Apart.symm {p q : PinnedPID} : Apart p q → Apart q p
  | .inl h => .inl h.symm
  | .inr ⟨x, hp, hq⟩ => .inr ⟨x, hq, hp⟩

/-- The state after `aggregate_topology`. -/
structure AggregatedAll (net₀ : NetState) (pids : PinnedPIDSet) (net : NetState)
    (agg : PinnedPIDSet) : Prop where
  closed : net.graph.Closed
  perm : (agg.map (·.pid)).Perm (pids.map (·.pid))
  single : ∀ q ∈ agg, q = .ofVertex q.pid q.getVertex
  alive : ∀ q ∈ agg, q.getVertex ∈ net.graph.verts
  left : ∀ x ∈ net₀.graph.verts, (∀ p ∈ pids, x ∉ p.vertices) →
    net.tags x = net₀.tags x ∧ ∀ q ∈ agg, q.getVertex ≠ x
  cover : ∀ x ∈ net.graph.verts, (∃ q ∈ agg, q.getVertex = x) ∨
    (x ∈ net₀.graph.verts ∧ ∀ p ∈ pids, x ∉ p.vertices)
  tagged : pids.Pairwise Disjoint → Tagged net agg

/-- `aggregate_topology` of PIDs that are apart: it returns, unless a name is taken. -/
theorem aggregateTopology_ok (libs : ViewLibs) {pids : PinnedPIDSet} (hclosed : u.net.graph.Closed)
    (halive : ∀ p ∈ pids, ∀ v ∈ p.vertices, v ∈ u.net.graph.verts)
    (hapart : pids.Pairwise Apart) (hpids : (pids.map (·.pid)).Nodup) :
    aggregateTopology libs u pids = .ok none ∨
      ∃ net agg, aggregateTopology libs u pids = .ok (some ({ u with net }, agg)) ∧
        AggregatedAll u.net pids net agg := by
  have hperm := libs.perm pids
  have hmem : ∀ p, p ∈ libs.iter pids ↔ p ∈ pids := fun p => hperm.mem_iff
  have hstart : Aggregating u.net [] (libs.iter pids) u.net [] := by
    refine ⟨hclosed, Nat.le_refl _, fun p hp v hv => ?_, fun p hp v hv => ?_, rfl,
      fun q hq => absurd hq List.not_mem_nil, fun q hq => absurd hq List.not_mem_nil,
      fun q hq => absurd hq List.not_mem_nil, fun _ _ _ => rfl, fun x hx => ?_⟩
    · exact hclosed.fresh v (halive p ((hmem p).1 hp) v hv)
    · exact halive p ((hmem p).1 hp) v hv
    · by_cases hp : ∃ p ∈ libs.iter pids, x ∈ p.vertices
      · exact .inr (.inl hp)
      · exact .inr (.inr ⟨hx, fun p hp' hxp => hp ⟨p, hp', hxp⟩⟩)
  rcases aggregateLoop_ok libs hstart ((hperm.pairwise_iff Apart.symm).2 hapart)
    ((hperm.map _).nodup_iff.2 hpids) with hfail | ⟨net, agg, hrun, h, htagged⟩
  · exact .inl hfail
  rw [List.nil_append] at h
  refine .inr ⟨net, agg, hrun, h.closed, ?_, h.single, h.alive, fun x hx hleft => ⟨?_, ?_⟩,
    fun x hx => ?_, fun hdisj => ?_⟩
  · rw [h.pids]
    exact (List.reverse_perm _).trans (hperm.map _)
  · refine h.left x hx fun p hp => hleft p ((hmem p).1 ?_)
    rwa [List.append_nil] at hp
  · intro q hq heq
    rcases h.target q hq with ⟨p, hp, honly⟩ | hnew
    · exact hleft p ((hmem p).1 hp) ((honly x).2 heq.symm)
    · exact absurd (hclosed.fresh x hx) (Nat.not_lt.2 (heq ▸ hnew))
  · rcases h.cover x hx with hq | ⟨p, hp, -⟩ | ⟨hx₀, hleft⟩
    · exact .inl hq
    · cases hp
    · refine .inr ⟨hx₀, fun p hp => hleft p ?_⟩
      rw [List.append_nil]
      exact (hmem p).2 hp
  · exact htagged ((hperm.pairwise_iff Disjoint.symm).2 hdisj)
      ⟨fun q hq => absurd hq List.not_mem_nil, fun q hq => absurd hq List.not_mem_nil⟩

/-! ## Vertices without a PID -/

/-- A temporary PID. -/
def tempPid (n : Nat) : PID := ⟨"temp.pid", n, false⟩

/-- Vertices with the next temporary PIDs. -/
def tempPins (start : Nat) (vs : List NetVertex) : List PinnedPID :=
  (vs.zipIdx start).map fun x => .ofVertex (tempPid x.2) x.1

/-- The vertices that get a temporary PID. -/
def IsTemp (action : ExtraNodeAction) (net : NetState) (pids : PinnedPIDSet) (v : NetVertex) : Prop :=
  v ∉ pinnedVertices pids ∧ net.getExternal v = some false ∧ action = .ignore

/-- The vertices that are removed. -/
def IsExtra (action : ExtraNodeAction) (net : NetState) (pids : PinnedPIDSet) (v : NetVertex) : Prop :=
  v ∉ pinnedVertices pids ∧ (net.getExternal v = some true ∨ action = .remove)

instance {action : ExtraNodeAction} {net : NetState} {pids : PinnedPIDSet} :
    DecidablePred (IsTemp action net pids) := fun _ => inferInstanceAs (Decidable (_ ∧ _))

instance {action : ExtraNodeAction} {net : NetState} {pids : PinnedPIDSet} :
    DecidablePred (IsExtra action net pids) := fun _ => inferInstanceAs (Decidable (_ ∧ _))

/-- The vertices that get a temporary PID, in the order of the graph. -/
def temps (action : ExtraNodeAction) (net : NetState) (pids : PinnedPIDSet) : List NetVertex :=
  net.getNodes.filter (IsTemp action net pids)

theorem tempPins_concat (start : Nat) (vs : List NetVertex) (v : NetVertex) :
    tempPins start (vs ++ [v]) =
      tempPins start vs ++ [.ofVertex (tempPid (start + vs.length)) v] := by
  simp [tempPins, List.zipIdx_append]

theorem mem_tempPins {start : Nat} {vs : List NetVertex} {p : PinnedPID} :
    p ∈ tempPins start vs ↔
      ∃ i v, vs[i]? = some v ∧ p = .ofVertex (tempPid (start + i)) v := by
  rw [tempPins, List.mem_map]
  constructor
  · rintro ⟨x, hx, rfl⟩
    rw [List.mem_zipIdx_iff_le_and_getElem?_sub] at hx
    refine ⟨x.2 - start, x.1, hx.2, ?_⟩
    rw [Nat.add_sub_cancel' hx.1]
  · rintro ⟨i, v, hv, rfl⟩
    refine ⟨(v, start + i), ?_, rfl⟩
    rw [List.mem_zipIdx_iff_le_and_getElem?_sub]
    exact ⟨Nat.le_add_right _ _, by simpa using hv⟩

theorem mem_pinnedVertices {pids : PinnedPIDSet} {v : NetVertex} :
    v ∈ pinnedVertices pids ↔ ∃ p ∈ pids, v ∈ p.vertices := by
  have hfold : ∀ (l : PinnedPIDSet) (s : StdSet NetVertex),
      v ∈ l.foldl (fun s p => p.vertices.toList.foldl (fun s v => s.insert v) s) s ↔
        (∃ p ∈ l, v ∈ p.vertices) ∨ v ∈ s := by
    intro l
    induction l with
    | nil => simp
    | cons p l ih =>
      intro s
      rw [List.foldl_cons, ih, StdSet.mem_foldl_insert, Std.ExtTreeSet.mem_toList]
      simp only [List.mem_cons, exists_eq_or_imp]
      rw [or_left_comm, or_assoc]
  rw [pinnedVertices, hfold, or_iff_left Std.ExtTreeSet.not_mem_empty]

theorem mem_ofVertex {pid : PID} {v x : NetVertex} :
    x ∈ (PinnedPID.ofVertex pid v).vertices ↔ x = v := by
  rw [PinnedPID.ofVertex, StdSet.mem_insert, or_iff_left Std.ExtTreeSet.not_mem_empty, eq_comm]

theorem mem_getNodes {v : NetVertex} : v ∈ net.getNodes ↔ v ∈ net.graph.verts :=
  Std.ExtTreeMap.mem_keys

theorem nodup_getNodes (net : NetState) : net.getNodes.Nodup :=
  Std.ExtTreeMap.distinct_keys.imp fun hne heq => hne (compare_eq_iff_eq.2 heq)

/-- The state of the loop of `handle_extra_nodes` after some vertices. -/
structure Extra (action : ExtraNodeAction) (u : ViewUpdate) (pids : PinnedPIDSet)
    (done : List NetVertex) (s : ViewUpdate × PinnedPIDSet × List NetVertex) : Prop where
  touched : Retouched u.net s.1.net
  orig : s.1.netOrig = u.netOrig
  lastTempPid : s.1.lastTempPid =
    u.lastTempPid + (done.filter (IsTemp action u.net pids)).length
  pinned : s.2.1 = (tempPins u.lastTempPid (done.filter (IsTemp action u.net pids))).foldl
    PinnedPIDSet.insert pids
  extra : s.2.2 = done.filter (IsExtra action u.net pids)
  temp : ∀ p ∈ tempPins u.lastTempPid (done.filter (IsTemp action u.net pids)),
    s.1.net.getPid p.getVertex = some p.pid
  other : ∀ v, v ∉ done.filter (IsTemp action u.net pids) → s.1.net.getPid v = u.net.getPid v

theorem Extra.step {action : ExtraNodeAction} {pids : PinnedPIDSet} {done : List NetVertex}
    {s : ViewUpdate × PinnedPIDSet × List NetVertex} {v : NetVertex}
    (h : Extra action u pids done s) (hv : v ∈ u.net.graph.verts) (hnew : v ∉ done) :
    ∃ s', extraNode action (pinnedVertices pids) s v = .ok s' ∧
      Extra action u pids (done ++ [v]) s' := by
  obtain ⟨cur, pids', extra⟩ := s
  obtain ⟨b, hb⟩ := mem_verts_iff_external.1 hv
  have hb' : cur.net.getExternal v = some b := (h.touched.external v).trans hb
  have hfilter : ∀ (q : NetVertex → Prop) [DecidablePred q], (done ++ [v]).filter q =
      done.filter q ++ if q v then [v] else [] := by
    intro q _
    rw [List.filter_append]
    by_cases hq : q v
    · simp [hq]
    · simp [hq]
  have htemp := hfilter (IsTemp action u.net pids)
  have hextra := hfilter (IsExtra action u.net pids)
  -- a vertex that gets no temporary PID changes only the list of the vertices to remove
  have hkeep : ¬ IsTemp action u.net pids v →
      Extra action u pids (done ++ [v])
        (cur, pids', extra ++ if IsExtra action u.net pids v then [v] else []) := by
    intro hno
    rw [if_neg hno, List.append_nil] at htemp
    refine ⟨h.touched, h.orig, ?_, ?_, ?_, ?_, ?_⟩
    · rw [htemp]
      exact h.lastTempPid
    · rw [htemp]
      exact h.pinned
    · rw [hextra]
      exact congrArg (· ++ _) h.extra
    · rw [htemp]
      exact h.temp
    · rw [htemp]
      exact h.other
  by_cases hagg : v ∈ pinnedVertices pids
  · have hstep := hkeep fun ht => ht.1 hagg
    rw [if_neg fun he : IsExtra action u.net pids v => he.1 hagg, List.append_nil] at hstep
    exact ⟨_, if_pos hagg, hstep⟩
  · cases b with
    | true =>
      have hstep := hkeep fun ht => by
        have hfalse := ht.2.1
        rw [hb] at hfalse
        cases hfalse
      rw [if_pos ⟨hagg, .inl hb⟩] at hstep
      refine ⟨_, ?_, hstep⟩
      simp only [extraNode, if_neg hagg, hb', orFault_some, bind, Except.bind, if_true]
    | false =>
      cases action with
      | remove =>
        have hstep := hkeep fun ht => by cases ht.2.2
        rw [if_pos ⟨hagg, .inr rfl⟩] at hstep
        refine ⟨_, ?_, hstep⟩
        simp only [extraNode, if_neg hagg, hb', orFault_some, bind, Except.bind,
          Bool.false_eq_true, if_false]
      | ignore =>
        have hv' : v ∈ cur.net.graph.verts := (h.touched.mem_verts v).2 hv
        obtain ⟨net', hset, htouched, hpid⟩ := setPid_retouched hv' (tempPid cur.lastTempPid)
        have hnotin : v ∉ done.filter (IsTemp .ignore u.net pids) := fun hmem =>
          hnew (List.mem_filter.1 hmem).1
        rw [if_pos ⟨hagg, hb, rfl⟩] at htemp
        have hnoextra : ¬ IsExtra .ignore u.net pids v := by
          rintro ⟨-, he | he⟩
          · rw [hb] at he
            cases he
          · cases he
        rw [if_neg hnoextra, List.append_nil] at hextra
        refine ⟨({ cur with net := net', lastTempPid := cur.lastTempPid + 1 },
          pids'.insert (.ofVertex (tempPid cur.lastTempPid) v), extra), ?_, ?_⟩
        · simp only [tempPid] at hset
          simp only [extraNode, if_neg hagg, hb', orFault_some, bind, Except.bind,
            Bool.false_eq_true, if_false, hset, tempPid]
        · have hlast := h.lastTempPid
          have hpins := h.pinned
          simp only at hlast hpins
          refine ⟨h.touched.trans htouched, h.orig, ?_, ?_, ?_, ?_, ?_⟩
          · rw [htemp, List.length_append]
            simp only [hlast]
            rfl
          · rw [htemp, tempPins_concat, List.foldl_append, ← hpins, ← hlast]
            rfl
          · rw [hextra]
            exact h.extra
          · rw [htemp, tempPins_concat, ← hlast]
            intro p hp
            simp only [hpid]
            rcases List.mem_append.1 hp with hp | hp
            · obtain ⟨i, x, hx, rfl⟩ := mem_tempPins.1 hp
              have hne : x ≠ v := fun heq => hnotin (heq ▸ List.mem_of_getElem? hx)
              have hold := h.temp _ hp
              rw [PinnedPID.getVertex_ofVertex] at hold ⊢
              rw [if_neg hne]
              exact hold
            · obtain rfl := List.mem_singleton.1 hp
              rw [PinnedPID.getVertex_ofVertex, if_pos rfl, PinnedPID.pid_ofVertex]
          · rw [htemp]
            intro x hx
            simp only [hpid]
            have hne : x ≠ v := by
              rintro rfl
              exact hx (List.mem_append_right _ List.mem_cons_self)
            rw [if_neg hne]
            exact h.other x fun hmem => hx (List.mem_append_left _ hmem)

/-- The state after `handle_extra_nodes`. -/
structure ExtraDone (action : ExtraNodeAction) (u : ViewUpdate) (pids : PinnedPIDSet)
    (net : NetState) : Prop where
  closed : net.graph.Closed
  verts : ∀ x, x ∈ net.graph.verts ↔ x ∈ u.net.graph.verts ∧ ¬ IsExtra action u.net pids x
  external : ∀ x ∈ net.graph.verts, net.getExternal x = u.net.getExternal x
  temp : ∀ p ∈ tempPins u.lastTempPid (temps action u.net pids),
    net.getPid p.getVertex = some p.pid
  other : ∀ x ∈ net.graph.verts, x ∉ temps action u.net pids → net.getPid x = u.net.getPid x

theorem size_pinnedVertices {pids : PinnedPIDSet}
    (halive : ∀ p ∈ pids, ∀ v ∈ p.vertices, v ∈ net.graph.verts) :
    (pinnedVertices pids).size ≤ net.getNodes.length := by
  rw [← Std.ExtTreeSet.length_toList]
  refine ((StdSet.nodup_toList (pinnedVertices pids)).subperm fun v hv => mem_getNodes.2 ?_).length_le
  obtain ⟨p, hp, hvp⟩ := mem_pinnedVertices.1 (Std.ExtTreeSet.mem_toList.1 hv)
  exact halive p hp v hvp

theorem handleExtraNodes_ok {action : ExtraNodeAction} {pids : PinnedPIDSet}
    (hclosed : u.net.graph.Closed)
    (halive : ∀ p ∈ pids, ∀ v ∈ p.vertices, v ∈ u.net.graph.verts) :
    ∃ net n, handleExtraNodes action u pids = .ok ({ u with net, lastTempPid := n },
        (tempPins u.lastTempPid (temps action u.net pids)).foldl PinnedPIDSet.insert pids) ∧
      ExtraDone action u pids net := by
  obtain ⟨s, hloop, hs, -, -⟩ := foldlM_total
    (P := fun done rest s => Extra action u pids done s ∧ (∀ v ∈ rest, v ∈ u.net.graph.verts) ∧
      (done ++ rest).Nodup)
    (f := extraNode action (pinnedVertices pids)) (l := u.net.getNodes) (s := (u, pids, []))
    (fun done v rest s h => by
      obtain ⟨h, hrest, hnodup⟩ := h
      have hnew : v ∉ done := fun hmem =>
        (List.nodup_append.1 hnodup).2.2 v hmem v List.mem_cons_self rfl
      obtain ⟨s', hrun, hs'⟩ := h.step (hrest v List.mem_cons_self) hnew
      exact ⟨s', hrun, hs', fun x hx => hrest x (List.mem_cons_of_mem _ hx), by simpa using hnodup⟩)
    ⟨⟨.refl _, rfl, rfl, rfl, rfl, fun p hp => absurd hp List.not_mem_nil, fun _ _ => rfl⟩,
      fun v hv => mem_getNodes.1 hv, nodup_getNodes u.net⟩
  obtain ⟨cur, pids', extra⟩ := s
  obtain rfl : extra = u.net.getNodes.filter (IsExtra action u.net pids) := hs.extra
  obtain rfl : pids' = (tempPins u.lastTempPid (temps action u.net pids)).foldl
    PinnedPIDSet.insert pids := hs.pinned
  have hmem : ∀ x, x ∈ u.net.getNodes.filter (IsExtra action u.net pids) ↔
      x ∈ u.net.graph.verts ∧ IsExtra action u.net pids x := fun x => by
    rw [List.mem_filter, mem_getNodes, decide_eq_true_eq]
  obtain ⟨net, hremove, hremoved⟩ := @foldlM_removeVertex cur.net
    (u.net.getNodes.filter (IsExtra action u.net pids)) (hs.touched.closed hclosed)
    ((nodup_getNodes u.net).filter _) fun v hv => (hs.touched.mem_verts v).2 ((hmem v).1 hv).1
  have hverts : ∀ x, x ∈ net.graph.verts ↔
      x ∈ u.net.graph.verts ∧ ¬ IsExtra action u.net pids x := by
    intro x
    rw [mem_verts_iff_tags]
    by_cases hx : x ∈ u.net.getNodes.filter (IsExtra action u.net pids)
    · rw [hremoved.out x hx]
      exact iff_of_false (by simp) fun h => h.2 ((hmem x).1 hx).2
    · rw [hremoved.kept x hx, ← mem_verts_iff_tags]
      refine (hs.touched.mem_verts x).trans ⟨fun h => ⟨h, fun he => hx ((hmem x).2 ⟨h, he⟩)⟩, ?_⟩
      exact And.left
  have hkept : ∀ x ∈ net.graph.verts, net.tags x = cur.net.tags x := fun x hx =>
    hremoved.kept x fun h => ((hverts x).1 hx).2 ((hmem x).1 h).2
  refine ⟨net, cur.lastTempPid, ?_, hremoved.closed, hverts, fun x hx => ?_, fun p hp => ?_,
    fun x hx hno => ?_⟩
  · have horig : cur.netOrig = u.netOrig := hs.orig
    have hrun := @foldlM_orFault _ _ .deadVertex _ _ _ _ hremove
    simp only [handleExtraNodes, Nat.not_lt.2 (size_pinnedVertices halive), if_false, hloop, bind,
      Except.bind, hrun, horig]
  · rw [getExternal_eq, hkept x hx, ← getExternal_eq]
    exact hs.touched.external x
  · -- a vertex with a temporary PID is not removed
    obtain ⟨i, x, hx, rfl⟩ := mem_tempPins.1 hp
    have hpid := hs.temp _ hp
    rw [PinnedPID.getVertex_ofVertex] at hpid ⊢
    obtain ⟨hnode, htemp⟩ := List.mem_filter.1 (List.mem_of_getElem? hx)
    have htemp := of_decide_eq_true htemp
    have hnot : ¬ IsExtra action u.net pids x := by
      rintro ⟨-, he | he⟩
      · rw [htemp.2.1] at he
        cases he
      · rw [htemp.2.2] at he
        cases he
    rw [getPid_eq, hkept x ((hverts x).2 ⟨mem_getNodes.1 hnode, hnot⟩), ← getPid_eq]
    exact hpid
  · rw [getPid_eq, hkept x hx, ← getPid_eq]
    exact hs.other x hno

/-! ## The three passes -/

theorem namesAlive_copy (net : NetState) : NamesAlive net.doCopyProperties := by
  intro name v hname
  rcases StdMap.get_foldl_insert (fun x : NetVertex × VertexProps => x.2.name) (fun x => x.1)
    net.graph.verts.toList ∅ name with ⟨x, hx, -, hres⟩ | ⟨-, hres⟩
  · obtain rfl := Option.some.inj (hname.symm.trans hres)
    exact StdMap.mem_iff_get.2 ⟨x.2, Std.ExtTreeMap.mem_toList_iff_getElem?_eq_some.1 hx⟩
  · have hnone := hname.symm.trans hres
    simp at hnone

/-- The records of an aggregation. -/
def viewRecords (agg : PIDAggregation) : List (PID × PIDRecord) := agg.pidRecords.byPid.toList

/-- The nodes that the PIDs of a view resolve to, and the PIDs they get. -/
def viewPids (net : NetState) (agg : PIDAggregation) : FoundPids :=
  foundPids net.doCopyProperties (viewRecords agg)

/-- Every PID of the aggregation has a node that exists. -/
def Resolved (net : NetState) (agg : PIDAggregation) : Prop :=
  ∀ e ∈ viewRecords agg, (recordVertices net.doCopyProperties e.2).isEmpty = false

/-- The state after the three passes. -/
structure Prepared (net : NetState) (view : View) (agg : PIDAggregation) (u : ViewUpdate)
    (pids : PinnedPIDSet) : Prop where
  orig : u.netOrig = net
  passes : ∃ (cur net₂ : NetState) (agg₂ : PinnedPIDSet), Retouched net.doCopyProperties cur ∧
    AggregatedAll cur (viewPids net agg).pids net₂ agg₂ ∧
    ExtraDone view.extraNodeAction { netOrig := net, net := net₂ } agg₂ u.net ∧
    pids = (tempPins 0 (temps view.extraNodeAction net₂ agg₂)).foldl PinnedPIDSet.insert agg₂

variable {view : View} {agg : PIDAggregation} {pids : PinnedPIDSet} {found : FoundPids}

/-- The passes return, unless a name is taken. -/
theorem prepare_ok (libs : ViewLibs) (hclosed : net.graph.Closed) (hne : Resolved net agg)
    (hapart : (viewPids net agg).pids.Pairwise Apart) :
    prepare libs net view agg = .ok none ∨
      ∃ u pids, prepare libs net view agg = .ok (some (u, viewPids net agg, pids)) ∧
        Prepared net view agg u pids := by
  obtain ⟨cur, hfind, htouched⟩ := findPids_ok
    (u := { netOrig := net, net := net.doCopyProperties }) (namesAlive_copy net) hne
  have hcopy : net.doCopyProperties.graph.Closed := hclosed
  have halive : ∀ p ∈ (viewPids net agg).pids, ∀ v ∈ p.vertices, v ∈ cur.graph.verts := by
    intro p hp v hv
    obtain ⟨e, -, -, hverts⟩ := foundPids_pids.2 p hp
    rw [← hverts] at hv
    obtain ⟨name, -, hname⟩ := mem_recordVertices.1 hv
    exact (htouched.mem_verts v).2 (namesAlive_copy net name v hname)
  rcases aggregateTopology_ok libs (u := { netOrig := net, net := cur }) (htouched.closed hcopy)
    halive hapart foundPids_pids.1 with hfail | ⟨net₂, agg₂, hagg, hall⟩
  · refine .inl ?_
    simp only [prepare, hfind, bind, Except.bind]
    rw [show (foundPids net.doCopyProperties agg.pidRecords.byPid.toList).pids =
      (viewPids net agg).pids from rfl, hfail]
    rfl
  · have halive₂ : ∀ q ∈ agg₂, ∀ v ∈ q.vertices, v ∈ net₂.graph.verts := by
      intro q hq v hv
      rw [hall.single q hq, mem_ofVertex] at hv
      exact hv ▸ hall.alive q hq
    obtain ⟨net₃, n, hextra, hdone⟩ := @handleExtraNodes_ok { netOrig := net, net := net₂ }
      view.extraNodeAction _ hall.closed halive₂
    refine .inr ⟨{ netOrig := net, net := net₃, lastTempPid := n }, _, ?_, rfl, cur, net₂, agg₂,
      htouched, hall, hdone, rfl⟩
    simp only [prepare, hfind, bind, Except.bind]
    rw [show (foundPids net.doCopyProperties agg.pidRecords.byPid.toList).pids =
      (viewPids net agg).pids from rfl, hagg]
    simp only [hextra]
    rfl

end Alto.ViewUpdate
