import Alto.Verify.PeerManager

/-!
# Rebuilding against building

`addPeer` for all peers in a fresh manager and `updatePeerDistribution` for all ISPs lead to the same
views, as far as their lookups find the same PIDs: `Distributed` says what a view holds for given
peers and PIDs, and both keep it. They do not lead to the same homes. `addPeer` compares the matches of
all ISPs, while a rebuild works on one ISP and only looks up the PIDs of the peers that have their home
there.
-/

namespace Alto.App

open Common Lib RandomAccessSet

variable {Peer ISP Mgr : Type} [LinearOrder Peer]

/-! ## What a view holds -/

/-- The PID that is stored for a PID: the known ones are below the PID count. -/
def clip (n : Nat) (pid : Int) : Int := if 0 ≤ pid ∧ n ≤ pid.toNat then errUnknownPID else pid

namespace PerISPPeerDistribution

variable {view : PerISPPeerDistribution Peer} {n : Nat} {pidOf : Peer → Int} {S : Set Peer} {p : Peer}

/-- A view that holds the peers of a set, under the PIDs that `pidOf` gives to them. -/
structure Distributed (n : Nat) (pidOf : Peer → Int) (S : Set Peer)
    (view : PerISPPeerDistribution Peer) : Prop where
  buckets : view.Buckets
  recorded : ∀ p : Peer, p ∈ S → view.peerToPid[p]? = some (clip n (pidOf p))
  absent : ∀ p : Peer, p ∉ S → view.peerToPid[p]? = none
  length : ∀ p : Peer, p ∈ S → view.pidPeers.length = n + 1
  length_zero : (∀ p : Peer, p ∉ S) → view.pidPeers.length = 0

theorem distributed_empty :
    Distributed n pidOf (∅ : Set Peer) ({} : PerISPPeerDistribution Peer) where
  buckets := buckets_empty
  recorded p hp := absurd hp (Set.notMem_empty p)
  absent _ _ := Std.ExtTreeMap.getElem?_empty
  length p hp := absurd hp (Set.notMem_empty p)
  length_zero _ := rfl

theorem Distributed.mem_iff (h : Distributed n pidOf S view) (p : Peer) :
    p ∈ view.peerToPid ↔ p ∈ S := by
  rw [StdMap.mem_iff_get]
  by_cases hp : p ∈ S
  · simp [h.recorded p hp, hp]
  · simp [h.absent p hp, hp]

/-- One more peer. -/
theorem Distributed.addPeerInternal [Inhabited Peer] (h : Distributed n pidOf S view) (p : Peer)
    (stats : PeerStats) :
    Distributed n pidOf {q | q = p ∨ q ∈ S} (view.addPeerInternal n p (pidOf p) stats).2 := by
  have hlength : (view.allocate n).pidPeers.length = n + 1 := by
    unfold allocate
    split
    · exact List.length_replicate
    · next hne =>
      obtain ⟨q, pid, hq⟩ := StdMap.exists_get hne
      exact h.length q ((h.mem_iff q).1 (StdMap.mem_iff_get.2 ⟨pid, hq⟩))
  have hstored : (view.allocate n).storedPid (pidOf p) = clip n (pidOf p) := by
    unfold storedPid clip
    rw [hlength, Nat.add_sub_cancel]
  refine ⟨h.buckets.addPeerInternal .., fun q hq => ?_, fun q hq => ?_, fun _ _ => ?_, fun hnone => ?_⟩
  · rw [get_addPeerInternal, hstored]
    split
    · next hnew => rw [hnew.1]
    · next hold =>
      rcases hq with rfl | hq
      · refine h.recorded q ((h.mem_iff q).1 ?_)
        exact not_not.1 fun hmem => hold ⟨rfl, hmem⟩
      · exact h.recorded q hq
  · rw [get_addPeerInternal, if_neg fun hnew => hq (.inl hnew.1.symm)]
    exact h.absent q fun hmem => hq (.inr hmem)
  · rw [length_addPeerInternal, hlength]
  · exact absurd (.inl rfl) (hnone p)

theorem Distributed.addAll [Inhabited Peer] (h : Distributed n pidOf S view)
    (l : List (Peer × PeerStats)) :
    Distributed n pidOf {q | q ∈ l.map (·.1) ∨ q ∈ S} (view.addAll n pidOf l) := by
  induction l generalizing view S with
  | nil => simpa [PerISPPeerDistribution.addAll] using h
  | cons x l ih =>
    have hset : {q | q ∈ (x :: l).map (·.1) ∨ q ∈ S} =
        {q | q ∈ l.map (·.1) ∨ q ∈ {q | q = x.1 ∨ q ∈ S}} := by
      ext q
      simp only [List.map_cons, List.mem_cons]
      exact or_assoc.trans or_left_comm
    rw [hset]
    exact ih (h.addPeerInternal x.1 x.2)

/-- A view that is built from nothing. -/
theorem distributed_addAll [Inhabited Peer] (n : Nat) (pidOf : Peer → Int)
    (l : List (Peer × PeerStats)) :
    Distributed n pidOf {q | q ∈ l.map (·.1)} (({} : PerISPPeerDistribution Peer).addAll n pidOf l) := by
  have hset : {q | q ∈ l.map (·.1)} = {q | q ∈ l.map (·.1) ∨ q ∈ (∅ : Set Peer)} := by
    ext q
    exact (or_iff_left (Set.notMem_empty q)).symm
  rw [hset]
  exact distributed_empty.addAll l

/-- A peer is in the bucket with this index. -/
def InBucket (view : PerISPPeerDistribution Peer) (i : Nat) (p : Peer) : Prop :=
  ∃ b : RandomAccessSet Peer, view.pidPeers[i]? = some b ∧ p ∈ b.elements

theorem Buckets.inBucket_iff (h : Buckets view) (i : Nat) (p : Peer) :
    view.InBucket i p ↔ ∃ pid, view.peerToPid[p]? = some pid ∧ view.slot pid = i := by
  constructor
  · rintro ⟨b, hb, hp⟩
    exact (h.mem i b hb p).1 (mem_elements.1 hp)
  · rintro ⟨pid, hpid, rfl⟩
    have hb := List.getElem?_eq_getElem (h.slot_lt p pid hpid)
    exact ⟨_, hb, mem_elements.2 ((h.mem _ _ hb p).2 ⟨pid, hpid, rfl⟩)⟩

/-- The same PIDs for the same peers, and the same peers in the buckets. -/
structure Same (v w : PerISPPeerDistribution Peer) : Prop where
  peerToPid : v.peerToPid = w.peerToPid
  length : v.pidPeers.length = w.pidPeers.length
  inBucket : ∀ i p, v.InBucket i p ↔ w.InBucket i p

/-- Views of the same peers are the same exactly if the same PIDs are stored for the peers. -/
theorem Distributed.same_iff {v w : PerISPPeerDistribution Peer} {pidOf' : Peer → Int}
    (hv : Distributed n pidOf S v) (hw : Distributed n pidOf' S w) :
    Same v w ↔ ∀ p ∈ S, clip n (pidOf p) = clip n (pidOf' p) := by
  constructor
  · intro h p hp
    have hrecorded := hv.recorded p hp
    rw [h.peerToPid, hw.recorded p hp] at hrecorded
    exact (Option.some.inj hrecorded).symm
  · intro hpid
    have hpids : v.peerToPid = w.peerToPid := by
      refine StdMap.ext_get fun p => ?_
      by_cases hp : p ∈ S
      · rw [hv.recorded p hp, hw.recorded p hp, hpid p hp]
      · rw [hv.absent p hp, hw.absent p hp]
    have hlength : v.pidPeers.length = w.pidPeers.length := by
      by_cases hS : ∀ p, p ∉ S
      · rw [hv.length_zero hS, hw.length_zero hS]
      · obtain ⟨p, hp⟩ := not_forall_not.1 hS
        rw [hv.length p hp, hw.length p hp]
    refine ⟨hpids, hlength, fun i p => ?_⟩
    rw [hv.buckets.inBucket_iff, hw.buckets.inBucket_iff, hpids]
    simp only [slot_of_length hlength]

/-- The PIDs of other peers do not matter. -/
theorem Distributed.congr {pidOf' : Peer → Int} (h : Distributed n pidOf S view)
    (hpid : ∀ p ∈ S, pidOf' p = pidOf p) : Distributed n pidOf' S view where
  buckets := h.buckets
  recorded p hp := by rw [hpid p hp, h.recorded p hp]
  absent := h.absent
  length := h.length
  length_zero := h.length_zero

end PerISPPeerDistribution

/-! ## Lookups only depend on the PID maps and the addresses -/

variable [LinearOrder ISP] {o o' : Objects Peer ISP Mgr} {isp : ISP} {p : Peer}

/-- The same PID maps, and the same addresses of the peers. -/
structure SameLookups (o o' : Objects Peer ISP Mgr) : Prop where
  pidMap : o'.pidMap = o.pidMap
  ipAddress : ∀ p, (o'.peer p).ipAddress = (o.peer p).ipAddress

omit [LinearOrder Peer] [LinearOrder ISP] in
theorem SameLookups.refl (o : Objects Peer ISP Mgr) : SameLookups o o := ⟨rfl, fun _ => rfl⟩

omit [LinearOrder Peer] [LinearOrder ISP] in
theorem SameLookups.trans {o'' : Objects Peer ISP Mgr} (h : SameLookups o o')
    (h' : SameLookups o' o'') : SameLookups o o'' :=
  ⟨h'.pidMap.trans h.pidMap, fun p => (h'.ipAddress p).trans (h.ipAddress p)⟩

omit [LinearOrder Peer] [LinearOrder ISP] in
theorem SameLookups.lookupPid (h : SameLookups o o') {behind : Behind} :
    lookupPid behind isp o' = lookupPid behind isp o := by
  funext p
  unfold Alto.App.lookupPid
  rw [h.pidMap, h.ipAddress]

omit [LinearOrder Peer] [LinearOrder ISP] in
theorem SameLookups.lookupPids (h : SameLookups o o') {behind : Peer → Behind} :
    lookupPids behind isp o' = lookupPids behind isp o := by
  funext p
  unfold Alto.App.lookupPids
  rw [h.lookupPid]

omit [LinearOrder Peer] in
theorem SameLookups.isHome (h : SameLookups o o') {behind : ISP → Behind} {isps : Set ISP}
    {home : Option ISP} : IsHome behind o' isps p home ↔ IsHome behind o isps p home := by
  have hin : ∀ isp, Internal (behind isp) o' isp p ↔ Internal (behind isp) o isp p := by
    intro isp
    unfold Internal
    rw [h.pidMap, h.ipAddress]
  have hlen : ∀ isp, matchLength (behind isp) o' isp p = matchLength (behind isp) o isp p := by
    intro isp
    unfold matchLength
    rw [h.pidMap, h.ipAddress]
  cases home <;> simp only [IsHome, hin, hlen]

omit [LinearOrder Peer] [LinearOrder ISP] in
/-- The PID of an internal match is the one that is stored. -/
theorem Internal.lookupPid {behind : Behind} (h : Internal behind o isp p) :
    lookupPid behind isp o p = ((o.pidMap isp).lookup behind (o.peer p).ipAddress).1 :=
  if_neg (not_lt.2 h.1)

/-! ## Rebuilding -/

variable [Inhabited Peer]

namespace PeerDistributionManager

variable {m m' : PeerDistributionManager Peer ISP}

/-- Calls of `updatePeerDistribution`, each with the bytes behind the keys of its lookups. -/
def updateAll (calls : List (ISP × (Peer → Behind)))
    (s : Objects Peer ISP Mgr × PeerDistributionManager Peer ISP) :
    Objects Peer ISP Mgr × PeerDistributionManager Peer ISP :=
  calls.foldl (fun s call => (s.2.updatePeerDistribution call.2 s.1 call.1).2) s

/-- The bytes of the last call for an ISP. -/
def lastCall (calls : List (ISP × (Peer → Behind))) (isp : ISP) : Peer → Behind :=
  (calls.reverse.lookup isp).getD fun _ _ _ => false

omit [LinearOrder Peer] [Inhabited Peer] in
theorem lastCall_concat (calls : List (ISP × (Peer → Behind))) (call : ISP × (Peer → Behind))
    (isp : ISP) :
    lastCall (calls ++ [call]) isp = if isp = call.1 then call.2 else lastCall calls isp := by
  unfold lastCall
  rw [List.reverse_append, List.reverse_singleton, List.singleton_append, List.lookup_cons]
  split
  · next h => rw [if_pos (beq_iff_eq.1 h), Option.getD_some]
  · next h => rw [if_neg (beq_eq_false_iff_ne.1 h)]

/-- The state after calls of `updatePeerDistribution`. -/
structure Rebuilt (o : Objects Peer ISP Mgr) (m : PeerDistributionManager Peer ISP)
    (calls : List (ISP × (Peer → Behind))) (o' : Objects Peer ISP Mgr)
    (m' : PeerDistributionManager Peer ISP) : Prop where
  same : SameLookups o o'
  peers : m'.peers = m.peers
  mem_views : ∀ isp, isp ∈ m'.views ↔ isp ∈ m.views
  views : ∀ (isp : ISP) (view : PerISPPeerDistribution Peer), isp ∈ calls.map (·.1) →
    m'.views[isp]? = some view → view.Distributed (o.pidMap isp).numTotalPIDs
      (lookupPids (lastCall calls isp) isp o) {p | p ∈ m.peers}
  homeISP : ∀ p, (o'.peer p).homeISP = (o.peer p).homeISP
  homePID : ∀ p isp, p ∈ m.peers → isp ∈ calls.map (·.1) → isp ∈ m.views →
    (o.peer p).homeISP = some isp →
    (o'.peer p).homePID = lookupPids (lastCall calls isp) isp o p
  otherPID : ∀ p, (∀ isp ∈ m.views, (o.peer p).homeISP ≠ some isp) →
    (o'.peer p).homePID = (o.peer p).homePID

/-- One more call. -/
theorem Rebuilt.update {calls : List (ISP × (Peer → Behind))} (h : Rebuilt o m calls o' m')
    (call : ISP × (Peer → Behind)) :
    Rebuilt o m (calls ++ [call]) (m'.updatePeerDistribution call.2 o' call.1).2.1
      (m'.updatePeerDistribution call.2 o' call.1).2.2 := by
  obtain ⟨isp, behind⟩ := call
  have hcalled : ∀ {i : ISP}, i ∈ (calls ++ [(isp, behind)]).map (·.1) → i ≠ isp →
      i ∈ calls.map (·.1) := by
    intro i hi hne
    rw [List.map_append, List.mem_append] at hi
    exact hi.resolve_right fun hi => hne (List.mem_singleton.1 hi)
  unfold PeerDistributionManager.updatePeerDistribution
  split
  · next hmem =>
    rw [addPeersFromManager_eq]
    have hpeers : ∀ p : Peer, p ∈ m'.peers.toList.map (·.1) ↔ p ∈ m.peers := by
      intro p
      rw [Std.ExtTreeMap.map_fst_toList_eq_keys, Std.ExtTreeMap.mem_keys, h.peers]
    refine ⟨h.same.trans ⟨rfl, fun p => ipAddress_rehome _ p⟩, h.peers, fun i => ?_,
      fun i view hi hview => ?_, fun p => (homeISP_rehome _ p).trans (h.homeISP p),
      fun p i hp hi hmem' hhome => ?_, fun p hother => ?_⟩
    · rw [Std.ExtTreeMap.mem_insert, compare_eq_iff_eq, h.mem_views]
      refine or_iff_right_of_imp ?_
      rintro rfl
      exact (h.mem_views _).1 hmem
    · rw [lastCall_concat]
      rw [StdMap.get_insert] at hview
      split at hview
      · next heq =>
        subst heq
        cases hview
        have hset : {p | p ∈ m.peers} = {p | p ∈ m'.peers.toList.map (·.1)} := by
          ext p
          exact (hpeers p).symm
        rw [hset, ← h.same.pidMap, if_pos rfl, ← h.same.lookupPids]
        exact PerISPPeerDistribution.distributed_addAll ..
      · next hne =>
        have hne' : i ≠ isp := Ne.symm hne
        rw [if_neg hne']
        exact h.views i view (hcalled hi hne') hview
    · rw [peer_rehome, lastCall_concat]
      by_cases heq : i = isp
      · subst heq
        rw [if_pos ⟨(hpeers p).2 hp, (h.homeISP p).trans hhome⟩, h.same.lookupPids, if_pos rfl]
        rfl
      · rw [if_neg, if_neg heq]
        · exact h.homePID p i hp (hcalled hi heq) hmem' hhome
        · rintro ⟨-, hhome'⟩
          exact heq (Option.some.inj (hhome.symm.trans ((h.homeISP p).symm.trans hhome')))
    · rw [peer_rehome, if_neg]
      · exact h.otherPID p hother
      · rintro ⟨-, hhome'⟩
        exact hother isp ((h.mem_views isp).1 hmem) ((h.homeISP p).symm.trans hhome')
  · next hmem =>
    refine ⟨h.same, h.peers, h.mem_views, fun i view hi hview => ?_, h.homeISP,
      fun p i hp hi hmem' hhome => ?_, h.otherPID⟩
    · have hne : i ≠ isp := by
        rintro rfl
        exact hmem (StdMap.mem_iff_get.2 ⟨view, hview⟩)
      rw [lastCall_concat, if_neg hne]
      exact h.views i view (hcalled hi hne) hview
    · have hne : i ≠ isp := by
        rintro rfl
        exact hmem ((h.mem_views _).2 hmem')
      rw [lastCall_concat, if_neg hne]
      exact h.homePID p i hp (hcalled hi hne) hmem' hhome

/-- The views of the ISPs of all calls are rebuilt. -/
theorem rebuilt_updateAll (o : Objects Peer ISP Mgr) (m : PeerDistributionManager Peer ISP)
    (calls : List (ISP × (Peer → Behind))) :
    Rebuilt o m calls (updateAll calls (o, m)).1 (updateAll calls (o, m)).2 := by
  have hstart : Rebuilt o m [] o m :=
    ⟨.refl o, rfl, fun _ => Iff.rfl, fun isp _ h => absurd h List.not_mem_nil, fun _ => rfl,
      fun _ isp _ h => absurd h List.not_mem_nil, fun _ _ => rfl⟩
  exact foldl_prefix (P := fun calls (s : Objects Peer ISP Mgr × PeerDistributionManager Peer ISP) =>
    Rebuilt o m calls s.1 s.2) (fun _ _ call h => h.update call) calls hstart

/-! ## Building -/

/-- The peers' objects as they are constructed, without a home. -/
def homeless (o : Objects Peer ISP Mgr) : Objects Peer ISP Mgr :=
  { o with peer := fun p => { o.peer p with homeISP := none, homePID := errUnknownPID } }

/-- A fresh manager that is given the ISPs of a list, and then the peers of a list, each with the bytes
behind the keys of its lookups. -/
def build (isps : List ISP) (joins : List (Peer × (ISP → Behind))) (o : Objects Peer ISP Mgr) :
    Objects Peer ISP Mgr × PeerDistributionManager Peer ISP :=
  joins.foldl (fun s join => (s.2.addPeer join.2 s.1 join.1).2)
    (homeless o, isps.foldl (fun m isp => (m.addISP isp).2) {})

/-- The bytes of the first call for a peer: the later ones look up nothing. -/
def firstJoin (joins : List (Peer × (ISP → Behind))) (p : Peer) : ISP → Behind :=
  (joins.lookup p).getD fun _ _ _ => false

omit [LinearOrder ISP] [Inhabited Peer] in
theorem firstJoin_concat_of_mem {joins : List (Peer × (ISP → Behind))}
    (hp : p ∈ joins.map (·.1)) (join : Peer × (ISP → Behind)) :
    firstJoin (joins ++ [join]) p = firstJoin joins p := by
  have hsome : (joins.lookup p).isSome := by
    obtain ⟨join', hmem, rfl⟩ := List.mem_map.1 hp
    exact List.lookup_isSome_iff.2 ⟨join', hmem, beq_self_eq_true _⟩
  unfold firstJoin
  rw [List.lookup_append, Option.or_of_isSome hsome]

omit [LinearOrder ISP] [Inhabited Peer] in
theorem firstJoin_concat_self {joins : List (Peer × (ISP → Behind))} {behind : ISP → Behind}
    (hp : p ∉ joins.map (·.1)) : firstJoin (joins ++ [(p, behind)]) p = behind := by
  have hnone : joins.lookup p = none := by
    refine List.lookup_eq_none_iff.2 fun join hmem => bne_iff_ne.2 ?_
    rintro rfl
    exact hp (List.mem_map.2 ⟨join, hmem, rfl⟩)
  unfold firstJoin
  rw [List.lookup_append, hnone, Option.none_or, List.lookup_cons, beq_self_eq_true]
  rfl

/-- The state after peers have been added. -/
structure Built (o : Objects Peer ISP Mgr) (isps : Set ISP) (joins : List (Peer × (ISP → Behind)))
    (o' : Objects Peer ISP Mgr) (m' : PeerDistributionManager Peer ISP) : Prop where
  same : SameLookups o o'
  peers : ∀ p, p ∈ m'.peers ↔ p ∈ joins.map (·.1)
  mem_views : ∀ isp, isp ∈ m'.views ↔ isp ∈ isps
  views : ∀ (isp : ISP) (view : PerISPPeerDistribution Peer), m'.views[isp]? = some view →
    view.Distributed (o.pidMap isp).numTotalPIDs (fun p => lookupPid (firstJoin joins p isp) isp o p)
      {p | p ∈ joins.map (·.1)}
  home : ∀ p ∈ joins.map (·.1), ∃ home, IsHome (firstJoin joins p) o isps p home ∧
    (o'.peer p).homeISP = home ∧ (o'.peer p).homePID = match home with
      | none => errUnknownPID
      | some isp => lookupPid (firstJoin joins p isp) isp o p
  homeless : ∀ p ∉ joins.map (·.1), (o'.peer p).homeISP = none ∧
    (o'.peer p).homePID = errUnknownPID

omit [LinearOrder Peer] [LinearOrder ISP] [Inhabited Peer] in
theorem joined_concat {joins : List (Peer × (ISP → Behind))} {behind : ISP → Behind} (q : Peer) :
    q ∈ (joins ++ [(p, behind)]).map (·.1) ↔ q = p ∨ q ∈ joins.map (·.1) := by
  rw [List.map_append, List.mem_append, List.map_singleton, List.mem_singleton, or_comm]

omit [Inhabited Peer] in
/-- A peer that joins again changes nothing. -/
theorem Built.addPeer_again {isps : Set ISP} {joins : List (Peer × (ISP → Behind))}
    (h : Built o isps joins o' m') (hp : p ∈ joins.map (·.1)) (behind : ISP → Behind) :
    Built o isps (joins ++ [(p, behind)]) o' m' := by
  have hold : ∀ q, q ∈ (joins ++ [(p, behind)]).map (·.1) ↔ q ∈ joins.map (·.1) :=
    fun q => (joined_concat q).trans (or_iff_right_of_imp fun hq => hq ▸ hp)
  have hset : {q | q ∈ (joins ++ [(p, behind)]).map (·.1)} = {q | q ∈ joins.map (·.1)} :=
    Set.ext hold
  refine ⟨h.same, fun q => (h.peers q).trans (hold q).symm, h.mem_views, fun isp view hview => ?_,
    fun q hq => ?_, fun q hq => h.homeless q fun hmem => hq ((hold q).2 hmem)⟩
  · rw [hset]
    refine (h.views isp view hview).congr fun q hq => ?_
    rw [firstJoin_concat_of_mem hq]
  · rw [firstJoin_concat_of_mem ((hold q).1 hq)]
    exact h.home q ((hold q).1 hq)

/-- One more peer. -/
theorem Built.addPeer {isps : Set ISP} {joins : List (Peer × (ISP → Behind))}
    (h : Built o isps joins o' m') (join : Peer × (ISP → Behind)) :
    Built o isps (joins ++ [join]) (m'.addPeer join.2 o' join.1).2.1
      (m'.addPeer join.2 o' join.1).2.2 := by
  obtain ⟨p, behind⟩ := join
  have hset : {q | q ∈ (joins ++ [(p, behind)]).map (·.1)} =
      {q | q = p ∨ q ∈ {q | q ∈ joins.map (·.1)}} := Set.ext joined_concat
  by_cases hp : p ∈ m'.peers
  · simp only [PeerDistributionManager.addPeer, if_pos hp]
    exact h.addPeer_again ((h.peers p).1 hp) behind
  have hspec := addPeer_spec behind o' hp
  have hnew : p ∉ joins.map (·.1) := fun hmem => hp ((h.peers p).2 hmem)
  obtain ⟨home, hhome, hobject⟩ := hspec.home
  have hisps : {isp | isp ∈ m'.views} = isps := by
    ext isp
    exact h.mem_views isp
  rw [hisps, h.same.isHome] at hhome
  refine ⟨h.same.trans ⟨hspec.pidMap, fun q => ?_⟩, fun q => ?_, fun isp => ?_,
    fun isp view hview => ?_, fun q hq => ?_, fun q hq => ?_⟩
  · by_cases hq : q = p
    · subst hq
      rw [hobject]
      cases home <;> rfl
    · rw [hspec.other q hq]
  · rw [hspec.peers, Std.ExtTreeMap.mem_insert, compare_eq_iff_eq, h.peers, joined_concat, eq_comm]
  · rw [mem_views_addPeer, h.mem_views]
  · rw [hspec.views] at hview
    obtain ⟨view', hview', rfl⟩ := Option.map_eq_some_iff.1 hview
    rw [h.same.pidMap, h.same.lookupPid, hset]
    have hkept : view'.Distributed (o.pidMap isp).numTotalPIDs
        (fun q => lookupPid (firstJoin (joins ++ [(p, behind)]) q isp) isp o q)
        {q | q ∈ joins.map (·.1)} := by
      refine (h.views isp view' hview').congr fun q hq => ?_
      rw [firstJoin_concat_of_mem hq]
    have hadded := hkept.addPeerInternal p (.ofPeer (o'.peer p))
    rwa [firstJoin_concat_self hnew] at hadded
  · by_cases hqp : q = p
    · subst hqp
      rw [firstJoin_concat_self hnew]
      refine ⟨home, hhome, ?_⟩
      rw [hobject]
      cases home with
      | none => exact h.homeless q hnew
      | some isp =>
        have hlookup := hhome.2.1.lookupPid
        rw [← h.same.pidMap, ← h.same.ipAddress] at hlookup
        exact ⟨rfl, hlookup.symm⟩
    · have hmem := ((joined_concat q).1 hq).resolve_left hqp
      rw [hspec.other q hqp, firstJoin_concat_of_mem hmem]
      exact h.home q hmem
  · rw [hspec.other q fun hqp => hq ((joined_concat q).2 (.inl hqp))]
    exact h.homeless q fun hmem => hq ((joined_concat q).2 (.inr hmem))

omit [Inhabited Peer] in
/-- `addISP` for the ISPs of a list leaves all views without peers. -/
theorem addISPs_bare (isps : List ISP) (m : PeerDistributionManager Peer ISP)
    (hm : ∀ (isp : ISP) (view : PerISPPeerDistribution Peer), m.views[isp]? = some view → view = {}) :
    (∀ (isp : ISP) (view : PerISPPeerDistribution Peer),
      (isps.foldl (fun m isp => (m.addISP isp).2) m).views[isp]? = some view → view = {}) ∧
      (isps.foldl (fun m isp => (m.addISP isp).2) m).peers = m.peers := by
  induction isps generalizing m with
  | nil => exact ⟨hm, rfl⟩
  | cons x isps ih =>
    have hpeers : (m.addISP x).2.peers = m.peers := by
      unfold PeerDistributionManager.addISP
      split <;> rfl
    rw [List.foldl_cons, ← hpeers]
    refine ih _ fun isp view hview => ?_
    unfold PeerDistributionManager.addISP at hview
    split at hview
    · exact hm isp view hview
    · rw [StdMap.get_insert] at hview
      split at hview
      · exact (Option.some.inj hview).symm
      · exact hm isp view hview

/-- The peers of a list are added to the views of the ISPs of a list. -/
theorem built_build (o : Objects Peer ISP Mgr) (isps : List ISP)
    (joins : List (Peer × (ISP → Behind))) :
    Built o {isp | isp ∈ isps} joins (build isps joins o).1 (build isps joins o).2 := by
  have hnone : ∀ (isp : ISP) (view : PerISPPeerDistribution Peer),
      ({} : PeerDistributionManager Peer ISP).views[isp]? = some view → view = {} := by
    intro isp view h
    simp at h
  obtain ⟨hbare, hpeers⟩ := addISPs_bare isps {} hnone
  have hmem := (@consistent_empty Peer ISP _ _).addISPs Std.ExtTreeMap.isEmpty_empty isps
  refine foldl_prefix (P := fun joins (s : Objects Peer ISP Mgr × PeerDistributionManager Peer ISP) =>
    Built o {isp | isp ∈ isps} joins s.1 s.2) (fun _ _ join h => h.addPeer join) joins ?_
  refine ⟨⟨rfl, fun _ => rfl⟩, fun p => ?_, fun isp => ?_, fun isp view hview => ?_,
    fun p hp => absurd hp List.not_mem_nil, fun _ _ => ⟨rfl, rfl⟩⟩
  · rw [hpeers]
    exact iff_of_false Std.ExtTreeMap.not_mem_empty List.not_mem_nil
  · exact (hmem.2 isp).trans (or_iff_left Std.ExtTreeMap.not_mem_empty)
  · have hset : {p : Peer | p ∈ ([] : List (Peer × (ISP → Behind))).map (·.1)} = ∅ :=
      Set.eq_empty_of_forall_notMem fun p hp => absurd hp List.not_mem_nil
    rw [hbare isp view hview, hset]
    exact PerISPPeerDistribution.distributed_empty

/-! ## The comparison -/

/-- The same views, and the same homes of the peers that have joined. -/
structure SameDistribution (s t : Objects Peer ISP Mgr × PeerDistributionManager Peer ISP) :
    Prop where
  mem_views : ∀ isp, isp ∈ s.2.views ↔ isp ∈ t.2.views
  views : ∀ (isp : ISP) (v w : PerISPPeerDistribution Peer), s.2.views[isp]? = some v →
    t.2.views[isp]? = some w → v.Same w
  home : ∀ p, p ∈ s.2.peers → (s.1.peer p).homeISP = (t.1.peer p).homeISP ∧
    (s.1.peer p).homePID = (t.1.peer p).homePID

/-- The bytes behind the keys of a rebuild and of a fresh manager give the peers the same PIDs, and
every peer already has its home at the ISP that has the longest internal match now, and none if there
is no such match. -/
structure Settled (o : Objects Peer ISP Mgr) (m : PeerDistributionManager Peer ISP)
    (last : ISP → Peer → Behind) (first : Peer → ISP → Behind) : Prop where
  pids : ∀ isp ∈ m.views, ∀ p ∈ m.peers, clip (o.pidMap isp).numTotalPIDs
    (lookupPid (last isp p) isp o p) =
      clip (o.pidMap isp).numTotalPIDs (lookupPid (first p isp) isp o p)
  homeISP : ∀ p ∈ m.peers, IsHome (first p) o {isp | isp ∈ m.views} p (o.peer p).homeISP
  homeless : ∀ p ∈ m.peers, (o.peer p).homeISP = none → (o.peer p).homePID = errUnknownPID
  homePID : ∀ p ∈ m.peers, ∀ isp, (o.peer p).homeISP = some isp →
    lookupPid (last isp p) isp o p = lookupPid (first p isp) isp o p

/-- Rebuilding all views under new PID maps leads to the state of a fresh manager exactly if the homes
are settled before. -/
theorem rebuild_eq_build_iff (o : Objects Peer ISP Mgr) (m : PeerDistributionManager Peer ISP)
    (calls : List (ISP × (Peer → Behind))) (isps : List ISP) (joins : List (Peer × (ISP → Behind)))
    (hcalls : ∀ isp, isp ∈ calls.map (·.1) ↔ isp ∈ m.views)
    (hisps : ∀ isp, isp ∈ isps ↔ isp ∈ m.views)
    (hjoins : ∀ p, p ∈ joins.map (·.1) ↔ p ∈ m.peers) :
    SameDistribution (updateAll calls (o, m)) (build isps joins o) ↔
      Settled o m (lastCall calls) (firstJoin joins) := by
  have hr := rebuilt_updateAll o m calls
  have hb := built_build o isps joins
  have hset : {isp | isp ∈ isps} = {isp | isp ∈ m.views} := Set.ext hisps
  have hset' : {p | p ∈ joins.map (·.1)} = {p | p ∈ m.peers} := Set.ext hjoins
  rw [hset] at hb
  have hviews : ∀ (isp : ISP) (v w : PerISPPeerDistribution Peer), isp ∈ m.views →
      (updateAll calls (o, m)).2.views[isp]? = some v →
      (build isps joins o).2.views[isp]? = some w →
      (v.Same w ↔ ∀ p ∈ m.peers, clip (o.pidMap isp).numTotalPIDs
        (lookupPid (lastCall calls isp p) isp o p) = clip (o.pidMap isp).numTotalPIDs
          (lookupPid (firstJoin joins p isp) isp o p)) := by
    intro isp v w hmem hv hw
    have hbuilt := hb.views isp w hw
    rw [hset'] at hbuilt
    exact (hr.views isp v ((hcalls isp).2 hmem) hv).same_iff hbuilt
  constructor
  · intro hsame
    refine ⟨fun isp hmem => ?_, fun p hp => ?_, fun p hp hnone => ?_, fun p hp isp hisp => ?_⟩
    · obtain ⟨v, hv⟩ := StdMap.mem_iff_get.1 ((hr.mem_views isp).2 hmem)
      obtain ⟨w, hw⟩ := StdMap.mem_iff_get.1 ((hb.mem_views isp).2 hmem)
      exact (hviews isp v w hmem hv hw).1 (hsame.views isp v w hv hw)
    all_goals
      obtain ⟨home, hhome, hisp', hpid⟩ := hb.home p ((hjoins p).2 hp)
      obtain ⟨hsameISP, hsamePID⟩ := hsame.home p (hr.peers ▸ hp)
      rw [hr.homeISP, hisp'] at hsameISP
    · rw [hsameISP]
      exact hhome
    · obtain rfl : home = none := hsameISP.symm.trans hnone
      rw [← hr.otherPID p (fun isp _ h => nomatch hnone.symm.trans h), hsamePID, hpid]
    · obtain rfl : home = some isp := hsameISP.symm.trans hisp
      have hrebuilt := hr.homePID p isp hp ((hcalls isp).2 hhome.1) hhome.1 hisp
      exact hrebuilt.symm.trans (hsamePID.trans hpid)
  · intro h
    refine ⟨fun isp => ?_, fun isp v w hv hw => ?_, fun p hp => ?_⟩
    · rw [hr.mem_views, hb.mem_views]
      rfl
    · have hmem := (hr.mem_views isp).1 (StdMap.mem_iff_get.2 ⟨v, hv⟩)
      exact (hviews isp v w hmem hv hw).2 (h.pids isp hmem)
    · rw [hr.peers] at hp
      obtain ⟨home, hhome, hisp, hpid⟩ := hb.home p ((hjoins p).2 hp)
      have heq := hhome.unique (h.homeISP p hp)
      rw [hr.homeISP, hisp, hpid]
      refine ⟨heq.symm, ?_⟩
      cases home with
      | none =>
        rw [hr.otherPID p (fun isp _ h => nomatch heq.trans h), h.homeless p hp heq.symm]
      | some isp =>
        rw [hr.homePID p isp hp ((hcalls isp).2 hhome.1) hhome.1 heq.symm]
        exact h.homePID p hp isp heq.symm

/-- Other PID maps: ISP 0 has `10.0.0.0/8` in its second PID, and ISP 1 has `8.0.0.0/5`. -/
def renumber (o : Objects Nat Nat Nat) : Objects Nat Nat Nat :=
  let ten := IPPrefix.ofRaw .inet [false, false, false, false, true, false, true, false] 8
  let eleven := IPPrefix.ofRaw .inet [false, false, false, false, true, false, true, true] 8
  let eight := IPPrefix.ofRaw .inet [false, false, false, false, true] 5
  let map := Function.update o.pidMap 0
    (.ofPrefixes (fun _ _ => false) [(⟨"isp", 1, false⟩, [eleven]), (⟨"isp", 2, false⟩, [ten])])
  { o with
    pidMap := Function.update map 1 (.ofPrefixes (fun _ _ => true) [(⟨"isp", 1, false⟩, [eight])]) }

/-- The state before: the peer has its home in PID 0 of ISP 0. -/
def joined : Objects Nat Nat Nat × PeerDistributionManager Nat Nat :=
  build [0, 1] [(7, fun _ _ _ => false)] (tenAt 0)

/-- The peer stays with its ISP, in another PID. -/
theorem rebuild_eq_build_renumbered :
    SameDistribution
      (updateAll [(1, fun _ _ _ => true), (0, fun _ _ _ => false)] (renumber joined.1, joined.2))
      (build [0, 1] [(7, fun _ _ _ => true)] (renumber joined.1)) := by
  have hb := built_build (tenAt 0) [0, 1] [(7, fun (_ : Nat) _ _ => false)]
  have hmem : ∀ isp, isp ∈ [0, 1] ↔ isp ∈ joined.2.views := fun isp => (hb.mem_views isp).symm
  have hjoins : ∀ p, p ∈ [(7, fun (_ : Nat) (_ : IPPrefix) (_ : Nat) => true)].map (·.1) ↔
      p ∈ joined.2.peers := fun p => (hb.peers p).symm
  refine (rebuild_eq_build_iff (renumber joined.1) joined.2
    [(1, fun _ _ _ => true), (0, fun _ _ _ => false)] [0, 1] [(7, fun _ _ _ => true)]
    (fun isp => ?_) hmem hjoins).2 ⟨fun isp hisp p hp => ?_, fun p hp => ?_, fun p hp hnone => ?_,
      fun p hp isp hisp => ?_⟩
  · rw [← hmem]
    simp [or_comm]
  all_goals obtain rfl := List.mem_singleton.1 ((hjoins p).2 hp)
  · have h01 := (hmem isp).2 hisp
    simp only [List.mem_cons, List.not_mem_nil, or_false] at h01
    rcases h01 with rfl | rfl <;> decide
  · have hhome : ((renumber joined.1).peer 7).homeISP = some 0 := by decide
    rw [hhome]
    refine ⟨(hmem 0).1 (by decide), ⟨by decide, by decide⟩, fun isp hisp _ => ?_⟩
    have h01 := (hmem isp).2 hisp
    simp only [List.mem_cons, List.not_mem_nil, or_false] at h01
    rcases h01 with rfl | rfl
    · exact .inr ⟨rfl, le_rfl⟩
    · exact .inl (by decide)
  · exact absurd hnone (by decide)
  · have hhome : ((renumber joined.1).peer 7).homeISP = some 0 := by decide
    cases hhome.symm.trans hisp
    decide

/-- The prefix of a peer moves from one ISP to the other. -/
theorem not_rebuild_eq_build_moved :
    ¬ SameDistribution
      (updateAll [(0, fun _ _ _ => false), (1, fun _ _ _ => false)]
        ({ joined.1 with pidMap := (tenAt 1).pidMap }, joined.2))
      (build [0, 1] [(7, fun _ _ _ => false)] { joined.1 with pidMap := (tenAt 1).pidMap }) := by
  intro hsame
  have hisp := (hsame.home 7 (by decide)).1
  exact absurd hisp (by decide)

end PeerDistributionManager

end Alto.App
