import Mathlib
import Alto.App.PeerDistribution
import Alto.Lib.Run
import Alto.Verify.HeapWithDelete

/-!
# The buckets of a view

`Buckets` ties the buckets of a view to `m_peer_to_pid`: a peer stands in the bucket of its recorded
PID and nowhere else. Every operation keeps it. The last bucket is for peers without a PID, and it
is found where the PID count was when the first peer came; a PID map that has grown since then
defines a PID with that index.
-/

namespace Alto.App

open Common Lib RandomAccessSet

section

variable {T : Type} [LinearOrder T] {a b : T}

theorem ptrLess_strictWeakOrder : StrictWeakOrder (ptrLess : T → T → Bool) where
  irrefl a := by simp [ptrLess]
  trans hab hbc := by
    simp only [ptrLess, decide_eq_true_eq] at hab hbc ⊢
    exact hab.trans hbc
  negTrans hab hbc := by
    simp only [ptrLess, decide_eq_true_eq, not_lt] at hab hbc ⊢
    exact hbc.trans hab

theorem equiv_ptrLess : equiv ptrLess a b = true ↔ a = b := by
  simp only [equiv, ptrLess, Bool.and_eq_true, Bool.not_eq_eq_eq_not, Bool.not_true,
    decide_eq_false_iff_not, not_lt]
  exact ⟨fun h => le_antisymm h.2 h.1, fun h => ⟨h.ge, h.le⟩⟩

end

namespace PerISPPeerDistribution

variable {Peer ISP Mgr : Type} [LinearOrder Peer]
variable {view : PerISPPeerDistribution Peer} {p q : Peer} {pid : Int} {n : Nat}

/-- A peer is in the bucket of its recorded PID and in no other. -/
structure Buckets (view : PerISPPeerDistribution Peer) : Prop where
  indexed : ∀ (i : Nat) (b : RandomAccessSet Peer), view.pidPeers[i]? = some b → b.Indexed ptrLess
  slot_lt : ∀ (p : Peer) (pid : Int), view.peerToPid[p]? = some pid →
    view.slot pid < view.pidPeers.length
  known_lt : ∀ (p : Peer) (pid : Int), view.peerToPid[p]? = some pid → 0 ≤ pid →
    pid.toNat + 1 < view.pidPeers.length
  mem : ∀ (i : Nat) (b : RandomAccessSet Peer), view.pidPeers[i]? = some b →
    ∀ p, b.Mem p ↔ ∃ pid, view.peerToPid[p]? = some pid ∧ view.slot pid = i

theorem buckets_empty : Buckets ({} : PerISPPeerDistribution Peer) where
  indexed _ _ h := nomatch h
  slot_lt _ _ h := by simp at h
  known_lt _ _ h := by simp at h
  mem _ _ h := nomatch h

/-- Only the number of buckets tells where the bucket of a PID is. -/
theorem slot_of_length {view' : PerISPPeerDistribution Peer}
    (h : view'.pidPeers.length = view.pidPeers.length) (pid : Int) :
    view'.slot pid = view.slot pid := by
  unfold slot
  rw [h]

theorem storedPid_known (hpos : 0 ≤ view.storedPid pid) :
    view.storedPid pid = pid ∧ pid.toNat + 1 < view.pidPeers.length := by
  unfold storedPid at hpos ⊢
  split
  · next h =>
    rw [if_pos h] at hpos
    exact absurd hpos (by decide)
  · next h =>
    rw [if_neg h] at hpos
    refine ⟨rfl, ?_⟩
    have hlt := not_le.1 fun hle => h ⟨hpos, hle⟩
    omega

theorem slot_storedPid_lt (hpos : 0 < view.pidPeers.length) :
    view.slot (view.storedPid pid) < view.pidPeers.length := by
  unfold slot
  split
  · next h =>
    have hknown := storedPid_known h
    rw [hknown.1]
    omega
  · omega

/-! ## Removing -/

theorem get_removePeer (p q : Peer) :
    (view.removePeer p).2.peerToPid[q]? = if p = q then none else view.peerToPid[q]? := by
  unfold removePeer
  cases hp : view.peerToPid[p]? with
  | none =>
    simp only
    split
    · next h => rw [← h, hp]
    · rfl
  | some pid =>
    simp only
    split
    · next hempty =>
      rw [← StdMap.get_erase, Std.ExtTreeMap.isEmpty_iff.1 hempty]
    · exact StdMap.get_erase

/-- The buckets stay as long as there are peers. -/
theorem length_removePeer (view : PerISPPeerDistribution Peer) (p : Peer) :
    (view.removePeer p).2.peerToPid.isEmpty ∨
      (view.removePeer p).2.pidPeers.length = view.pidPeers.length := by
  unfold removePeer
  cases hp : view.peerToPid[p]? with
  | none => exact .inr rfl
  | some pid =>
    simp only
    split
    · exact .inl Std.ExtTreeMap.isEmpty_empty
    · exact .inr (List.length_modify ..)

/-- `removePeer` keeps the buckets. -/
theorem Buckets.removePeer (h : Buckets view) (p : Peer) : Buckets (view.removePeer p).2 := by
  unfold PerISPPeerDistribution.removePeer
  cases hp : view.peerToPid[p]? with
  | none => exact h
  | some pid =>
    simp only
    split
    · exact buckets_empty
    have hslot := @slot_of_length _ _ view
      { view with
        peerToPid := view.peerToPid.erase p
        pidPeers := view.pidPeers.modify (view.slot pid) (·.erase ptrLess p) }
      (List.length_modify ..)
    have herase : ∀ (i : Nat) (b : RandomAccessSet Peer), view.pidPeers[i]? = some b →
        (b.erase ptrLess p).Indexed ptrLess ∧ ∀ q, (b.erase ptrLess p).Mem q ↔ b.Mem q ∧ p ≠ q := by
      intro i b hb
      have hspec := erase_spec ptrLess_strictWeakOrder (h.indexed i b hb) p
      exact ⟨hspec.1, fun q => by rw [hspec.2 q, equiv_ptrLess]⟩
    constructor
    · intro i b hb
      simp only [List.getElem?_modify] at hb
      obtain ⟨b', hb', rfl⟩ := Option.map_eq_some_iff.1 hb
      split
      · exact (herase i b' hb').1
      · exact h.indexed i b' hb'
    · intro q pid' hq
      rw [StdMap.get_erase] at hq
      split at hq
      · cases hq
      · rw [hslot]
        simpa using h.slot_lt q pid' hq
    · intro q pid' hq hpid'
      rw [StdMap.get_erase] at hq
      split at hq
      · cases hq
      · simpa using h.known_lt q pid' hq hpid'
    · intro i b hb q
      simp only [List.getElem?_modify] at hb
      obtain ⟨b', hb', rfl⟩ := Option.map_eq_some_iff.1 hb
      have hmem := h.mem i b' hb' q
      simp only [StdMap.get_erase, hslot]
      by_cases hqp : p = q
      · -- the removed peer stood in no other bucket
        subst hqp
        simp only [if_true, reduceCtorEq, false_and, exists_false, iff_false]
        split
        · simp [(herase i b' hb').2]
        · next hi =>
          rw [hmem, hp]
          simpa using hi
      · rw [if_neg hqp, ← hmem]
        split
        · simp [(herase i b' hb').2, hqp]
        · rfl

/-! ## Statistics -/

theorem peerToPid_updatePeerStats (p : Peer) (change : StatsChange) :
    (view.updatePeerStats p change).2.peerToPid = view.peerToPid := by
  unfold updatePeerStats
  split <;> rfl

/-- `updatePeerStats` does not touch the buckets. -/
theorem Buckets.updatePeerStats (h : Buckets view) (p : Peer) (change : StatsChange) :
    Buckets (view.updatePeerStats p change).2 := by
  unfold PerISPPeerDistribution.updatePeerStats
  split
  · exact h
  · exact ⟨h.indexed, h.slot_lt, h.known_lt, h.mem⟩

/-! ## Adding -/

/-- A view with one more peer, as `addPeerInternal` builds it after the allocation. -/
theorem Buckets.insert (h : Buckets view) (hp : p ∉ view.peerToPid)
    (hpos : 0 < view.pidPeers.length) (swarmState : SwarmState) :
    Buckets
      { peerToPid := view.peerToPid.insert p (view.storedPid pid)
        pidPeers := view.pidPeers.modify (view.slot (view.storedPid pid)) (·.pushBack ptrLess p)
        swarmState } := by
  have hslot := @slot_of_length _ _ view
    { peerToPid := view.peerToPid.insert p (view.storedPid pid)
      pidPeers := view.pidPeers.modify (view.slot (view.storedPid pid)) (·.pushBack ptrLess p)
      swarmState } (List.length_modify ..)
  have hnone := StdMap.get_eq_none hp
  have hnew : ∀ (i : Nat) (b : RandomAccessSet Peer), view.pidPeers[i]? = some b → ¬ b.Mem p := by
    intro i b hb hmem
    obtain ⟨pid', hpid', -⟩ := (h.mem i b hb p).1 hmem
    cases hnone.symm.trans hpid'
  have hfind : ∀ (i : Nat) (b : RandomAccessSet Peer), view.pidPeers[i]? = some b → b.find p = none := by
    intro i b hb
    cases hf : b.find p with
    | none => rfl
    | some j =>
      obtain ⟨hj, heq⟩ := (h.indexed i b hb).vec_index p j hf
      exact absurd ⟨j, hj, (equiv_ptrLess.1 heq).symm⟩ (hnew i b hb)
  constructor
  · intro i b hb
    simp only [List.getElem?_modify] at hb
    obtain ⟨b', hb', rfl⟩ := Option.map_eq_some_iff.1 hb
    split
    · exact (h.indexed i b' hb').pushBack ptrLess_strictWeakOrder (hfind i b' hb')
    · exact h.indexed i b' hb'
  · intro q pid' hq
    rw [hslot]
    simp only [List.length_modify]
    rw [StdMap.get_insert] at hq
    split at hq
    · cases hq
      exact slot_storedPid_lt hpos
    · exact h.slot_lt q pid' hq
  · intro q pid' hq hpid'
    simp only [List.length_modify]
    rw [StdMap.get_insert] at hq
    split at hq
    · cases hq
      have hknown := storedPid_known hpid'
      rw [hknown.1]
      exact hknown.2
    · exact h.known_lt q pid' hq hpid'
  · intro i b hb q
    simp only [hslot]
    simp only [List.getElem?_modify] at hb
    obtain ⟨b', hb', rfl⟩ := Option.map_eq_some_iff.1 hb
    simp only [StdMap.get_insert]
    by_cases hqp : p = q
    · subst hqp
      rw [if_pos rfl]
      have hiff : (∃ pid', some (view.storedPid pid) = some pid' ∧ view.slot pid' = i) ↔
          view.slot (view.storedPid pid) = i := by simp
      rw [hiff]
      split
      · next hi => simp [hi, mem_pushBack (hfind i b' hb')]
      · next hi => simp [hi, hnew i b' hb']
    · rw [if_neg hqp]
      have hmem : (if view.slot (view.storedPid pid) = i then b'.pushBack ptrLess p else b').Mem q ↔
          b'.Mem q := by
        split
        · rw [mem_pushBack (hfind i b' hb')]
          exact or_iff_left (Ne.symm hqp)
        · rfl
      rw [hmem]
      exact h.mem i b' hb' q

variable [Inhabited Peer]

theorem peerToPid_allocate (n : Nat) (view : PerISPPeerDistribution Peer) :
    (view.allocate n).peerToPid = view.peerToPid := by
  unfold allocate
  split <;> rfl

theorem allocate_of_mem (h : p ∈ view.peerToPid) : view.allocate n = view := by
  unfold allocate
  rw [if_neg (StdMap.not_isEmpty_of_mem h)]

theorem Buckets.allocate (h : Buckets view) (n : Nat) : Buckets (view.allocate n) := by
  by_cases hempty : view.peerToPid.isEmpty
  · have hnone : ∀ p : Peer, view.peerToPid[p]? = none := by
      intro p
      rw [Std.ExtTreeMap.isEmpty_iff.1 hempty]
      exact Std.ExtTreeMap.getElem?_empty
    have heq : ∀ (i : Nat) (b : RandomAccessSet Peer), (view.allocate n).pidPeers[i]? = some b → b = default := by
      intro i b hb
      simp only [PerISPPeerDistribution.allocate, if_pos hempty, List.getElem?_replicate] at hb
      split at hb
      · exact (Option.some.inj hb).symm
      · cases hb
    constructor
    · intro i b hb
      rw [heq i b hb]
      exact indexed_empty
    · intro p pid hp
      rw [peerToPid_allocate, hnone] at hp
      cases hp
    · intro p pid hp
      rw [peerToPid_allocate, hnone] at hp
      cases hp
    · intro i b hb p
      rw [heq i b hb, peerToPid_allocate, hnone]
      simp [not_mem_empty]
  · rwa [PerISPPeerDistribution.allocate, if_neg hempty]

/-- After the allocation there is a bucket for peers without a PID. -/
theorem Buckets.allocate_pos (h : Buckets view) (n : Nat) : 0 < (view.allocate n).pidPeers.length := by
  unfold PerISPPeerDistribution.allocate
  split
  · simp
  · next hne =>
    obtain ⟨p, pid, hpid⟩ := StdMap.exists_get hne
    exact Nat.zero_lt_of_lt (h.slot_lt p pid hpid)

/-- `addPeerInternal` keeps the buckets. -/
theorem Buckets.addPeerInternal (h : Buckets view) (n : Nat) (p : Peer) (pid : Int)
    (stats : PeerStats) : Buckets (view.addPeerInternal n p pid stats).2 := by
  have halloc := h.allocate n
  unfold PerISPPeerDistribution.addPeerInternal
  simp only
  split
  · exact halloc
  · next hp => exact halloc.insert hp (h.allocate_pos n) _

/-- What is recorded after `addPeerInternal`. -/
theorem get_addPeerInternal (n : Nat) (p : Peer) (pid : Int) (stats : PeerStats) (q : Peer) :
    (view.addPeerInternal n p pid stats).2.peerToPid[q]? =
      if p = q ∧ p ∉ view.peerToPid then some ((view.allocate n).storedPid pid)
      else view.peerToPid[q]? := by
  unfold addPeerInternal
  simp only [peerToPid_allocate]
  by_cases hp : p ∈ view.peerToPid
  · simp [hp, peerToPid_allocate]
  · simp [hp, StdMap.get_insert]

theorem mem_addPeerInternal (n : Nat) (p : Peer) (pid : Int) (stats : PeerStats) (q : Peer) :
    q ∈ (view.addPeerInternal n p pid stats).2.peerToPid ↔ q = p ∨ q ∈ view.peerToPid := by
  rw [StdMap.mem_iff_get, get_addPeerInternal]
  by_cases hp : p = q
  · subst hp
    by_cases hmem : p ∈ view.peerToPid
    · simp [hmem]
    · simp [hmem]
  · rw [if_neg fun h => hp h.1, ← StdMap.mem_iff_get]
    exact (or_iff_right (Ne.symm hp)).symm

theorem addPeerInternal_of_mem (h : p ∈ view.peerToPid) (n : Nat) (pid : Int) (stats : PeerStats) :
    (view.addPeerInternal n p pid stats).2 = view := by
  unfold addPeerInternal
  simp only [allocate_of_mem h, if_pos h]

theorem length_addPeerInternal (n : Nat) (p : Peer) (pid : Int) (stats : PeerStats) :
    (view.addPeerInternal n p pid stats).2.pidPeers.length = (view.allocate n).pidPeers.length := by
  unfold addPeerInternal
  simp only
  split
  · rfl
  · simp

/-! ## Rebuilding -/

/-- `addPeerInternal` for all peers of a list. -/
def addAll (n : Nat) (pidOf : Peer → Int) (view : PerISPPeerDistribution Peer)
    (l : List (Peer × PeerStats)) : PerISPPeerDistribution Peer :=
  l.foldl (fun view x => (view.addPeerInternal n x.1 (pidOf x.1) x.2).2) view

theorem Buckets.addAll (h : Buckets view) (n : Nat) (pidOf : Peer → Int)
    (l : List (Peer × PeerStats)) : Buckets (view.addAll n pidOf l) := by
  induction l generalizing view with
  | nil => exact h
  | cons x l ih => exact ih (h.addPeerInternal n x.1 (pidOf x.1) x.2)

theorem mem_addAll (n : Nat) (pidOf : Peer → Int) (l : List (Peer × PeerStats)) :
    p ∈ (view.addAll n pidOf l).peerToPid ↔ p ∈ l.map (·.1) ∨ p ∈ view.peerToPid := by
  induction l generalizing view with
  | nil => simp [addAll]
  | cons x l ih =>
    refine ih.trans ?_
    rw [mem_addPeerInternal, List.map_cons, List.mem_cons]
    exact or_left_comm.trans or_assoc.symm

theorem length_addAll_of_mem (h : p ∈ view.peerToPid) (n : Nat) (pidOf : Peer → Int)
    (l : List (Peer × PeerStats)) :
    (view.addAll n pidOf l).pidPeers.length = view.pidPeers.length := by
  induction l generalizing view with
  | nil => rfl
  | cons x l ih =>
    refine (ih ((mem_addPeerInternal ..).2 (.inr h))).trans ?_
    rw [length_addPeerInternal, allocate_of_mem h]

/-- From an empty view on there is a bucket for every PID and one for the peers without any. -/
theorem length_addAll_empty (n : Nat) (pidOf : Peer → Int) (l : List (Peer × PeerStats)) :
    (({} : PerISPPeerDistribution Peer).addAll n pidOf l).pidPeers.length =
      if l = [] then 0 else n + 1 := by
  cases l with
  | nil => rfl
  | cons x l =>
    refine (length_addAll_of_mem ((mem_addPeerInternal ..).2 (.inl rfl)) n pidOf l).trans ?_
    rw [length_addPeerInternal]
    simp [allocate]

end PerISPPeerDistribution

section

variable {Peer ISP Mgr : Type} [LinearOrder Peer] [LinearOrder ISP]
variable (behind : Peer → Behind) (isp : ISP) (o : Objects Peer ISP Mgr)

/-- The PID that a PID map gives to a peer. -/
def lookupPid (behind : Behind) (isp : ISP) (o : Objects Peer ISP Mgr) (p : Peer) : Int :=
  let found := ((o.pidMap isp).lookup behind (o.peer p).ipAddress).1
  if found < 0 then errUnknownPID else found

/-- The PIDs that a rebuild looks up. -/
def lookupPids (p : Peer) : Int := lookupPid (behind p) isp o p

/-- The homes after a rebuild: a peer keeps its home ISP. -/
def rehome (l : List (Peer × PeerStats)) : Objects Peer ISP Mgr :=
  { o with
    peer := fun p =>
      if p ∈ l.map (·.1) ∧ (o.peer p).homeISP = some isp then
        (o.peer p).setHome isp (lookupPids behind isp o p)
      else o.peer p }

variable {behind isp o}

theorem peer_rehome (l : List (Peer × PeerStats)) (p : Peer) :
    (rehome behind isp o l).peer p =
      if p ∈ l.map (·.1) ∧ (o.peer p).homeISP = some isp then
        (o.peer p).setHome isp (lookupPids behind isp o p)
      else o.peer p := rfl

theorem homeISP_rehome (l : List (Peer × PeerStats)) (p : Peer) :
    ((rehome behind isp o l).peer p).homeISP = (o.peer p).homeISP := by
  rw [peer_rehome]
  split
  · next h => exact h.2.symm
  · rfl

theorem ipAddress_rehome (l : List (Peer × PeerStats)) (p : Peer) :
    ((rehome behind isp o l).peer p).ipAddress = (o.peer p).ipAddress := by
  rw [peer_rehome]
  split <;> rfl

theorem lookupPids_rehome (l : List (Peer × PeerStats)) :
    lookupPids behind isp (rehome behind isp o l) = lookupPids behind isp o := by
  funext p
  unfold lookupPids lookupPid
  rw [ipAddress_rehome]
  rfl

theorem rehome_rehome (k l : List (Peer × PeerStats)) :
    rehome behind isp (rehome behind isp o k) l = rehome behind isp o (k ++ l) := by
  refine congrArg (Objects.mk o.pidMap · o.ispManager) (funext fun p => ?_)
  rw [homeISP_rehome, lookupPids_rehome, peer_rehome]
  simp only [List.map_append, List.mem_append]
  by_cases hhome : (o.peer p).homeISP = some isp
  · by_cases hk : p ∈ k.map (·.1)
    · simp only [hhome, hk, and_true, true_or, if_true]
      split <;> rfl
    · simp only [hhome, hk, and_true, false_or, if_false]
  · simp only [hhome, and_false, if_false]

variable (behind isp o) [Inhabited Peer]

theorem addPeerFromManager_eq (view : PerISPPeerDistribution Peer) (x : Peer × PeerStats) :
    addPeerFromManager behind isp (view, o) x =
      ((view.addPeerInternal (o.pidMap isp).numTotalPIDs x.1 (lookupPids behind isp o x.1) x.2).2,
        rehome behind isp o [x]) := by
  have hother : ∀ p, p ≠ x.1 → (rehome behind isp o [x]).peer p = o.peer p := by
    intro p hp
    simp [rehome, hp]
  unfold addPeerFromManager
  simp only
  split
  · next hhome =>
    refine Prod.ext rfl (congrArg (Objects.mk o.pidMap · o.ispManager) (funext fun p => ?_))
    by_cases hp : p = x.1
    · subst hp
      simp [hhome, lookupPids, lookupPid]
    · rw [Function.update_of_ne hp]
      exact (hother p hp).symm
  · next hhome =>
    refine Prod.ext rfl (congrArg (Objects.mk o.pidMap · o.ispManager) (funext fun p => ?_))
    by_cases hp : p = x.1
    · subst hp
      simp [hhome]
    · exact (hother p hp).symm

/-- A rebuild adds all peers to an empty view and moves the homes of the peers at home there. -/
theorem addPeersFromManager_eq (peers : StdMap Peer PeerStats) :
    addPeersFromManager behind isp peers o =
      (({} : PerISPPeerDistribution Peer).addAll (o.pidMap isp).numTotalPIDs
        (lookupPids behind isp o) peers.toList, rehome behind isp o peers.toList) := by
  have hloop : ∀ (l : List (Peer × PeerStats)) (view : PerISPPeerDistribution Peer)
      (o : Objects Peer ISP Mgr), l.foldl (addPeerFromManager behind isp) (view, o) =
        (view.addAll (o.pidMap isp).numTotalPIDs (lookupPids behind isp o) l,
          rehome behind isp o l) := by
    intro l
    induction l with
    | nil =>
      intro view o
      simp [PerISPPeerDistribution.addAll, rehome]
    | cons x l ih =>
      intro view o
      rw [List.foldl_cons, addPeerFromManager_eq, ih, lookupPids_rehome, rehome_rehome]
      rfl
  exact hloop peers.toList {} o

/-! ## Runs of a view -/

/-- A view with the objects around it. -/
structure ViewState (Peer ISP Mgr : Type) [LinearOrder Peer] where
  objects : Objects Peer ISP Mgr
  view : PerISPPeerDistribution Peer

/-- What can happen to the view of an ISP: a call, with the peers of the manager and the bytes behind
the keys of the lookups for a rebuild, or a new PID map. -/
inductive ViewStep (Peer : Type) [LinearOrder Peer] where
  | addPeer (peer : Peer) (pid : Int)
  | removePeer (peer : Peer)
  | updatePeerDistribution (peers : StdMap Peer PeerStats) (behind : Peer → Behind)
  | setPIDMap (map : ISPPIDMap)

namespace ViewState

/-- The number of PIDs that the ISP defines. -/
def numPIDs (isp : ISP) (s : ViewState Peer ISP Mgr) : Nat := (s.objects.pidMap isp).numTotalPIDs

def step (s : ViewState Peer ISP Mgr) : ViewStep Peer → Option (ViewState Peer ISP Mgr)
  | .addPeer peer pid =>
    some { s with view := (s.view.addPeer (s.numPIDs isp) peer (s.objects.peer peer) pid).2 }
  | .removePeer peer => some { s with view := (s.view.removePeer peer).2 }
  | .updatePeerDistribution peers behind =>
    let (view, objects) := addPeersFromManager behind isp peers s.objects
    some ⟨objects, view⟩
  | .setPIDMap map =>
    some { s with objects := { s.objects with
      pidMap := Function.update s.objects.pidMap isp map } }

end ViewState

/-- The peers that have been added to a view and not been removed since. -/
def present (peers : Set Peer) : ViewStep Peer → Set Peer
  | .addPeer peer _ => {p | p = peer ∨ p ∈ peers}
  | .removePeer peer => {p | peer ≠ p ∧ p ∈ peers}
  | .updatePeerDistribution peers _ => {peer | peer ∈ peers}
  | .setPIDMap _ => peers

namespace PerISPPeerDistribution

/-- Every stored peer is in one bucket, the one of its recorded PID, and no bucket holds a peer
twice or a peer that is not stored. -/
structure WellBucketed (view : PerISPPeerDistribution Peer) (stored : Set Peer) : Prop where
  stored_iff : ∀ p : Peer, p ∈ view.peerToPid ↔ p ∈ stored
  bucket_iff : ∀ (p : Peer) (pid : Int), view.peerToPid[p]? = some pid → ∀ i : Nat,
    (∃ b : RandomAccessSet Peer, view.pidPeers[i]? = some b ∧ p ∈ b.elements) ↔
      i = if 0 ≤ pid then pid.toNat else view.pidPeers.length - 1
  mem_stored : ∀ b ∈ view.pidPeers, ∀ p ∈ b.elements, p ∈ stored
  nodup : ∀ b ∈ view.pidPeers, b.elements.Nodup

/-- The recorded PID of a peer is known. -/
def Known (view : PerISPPeerDistribution Peer) (p : Peer) : Prop :=
  ∃ pid : Int, view.peerToPid[p]? = some pid ∧ 0 ≤ pid

/-- What a view reports about a PID index are peers with a known PID. -/
structure ReportsKnown (view : PerISPPeerDistribution Peer) (i : Nat) : Prop where
  list : ∀ l, view.listPIDPeers i = some l → ∀ p ∈ l, view.Known p
  random : ∀ rand p, view.getRandomPeer i rand = some p → view.Known p
  num : view.getNumPeers i = -1 ∨
    ∃ l : List Peer, l.Nodup ∧ (∀ p ∈ l, view.Known p) ∧ view.getNumPeers i = l.length

variable {view : PerISPPeerDistribution Peer}

omit [Inhabited Peer] in
theorem Buckets.wellBucketed {stored : Set Peer} (h : Buckets view)
    (hstored : ∀ p : Peer, p ∈ view.peerToPid ↔ p ∈ stored) : view.WellBucketed stored where
  stored_iff := hstored
  bucket_iff p pid hp i := by
    constructor
    · rintro ⟨b, hb, hmem⟩
      obtain ⟨pid', hp', rfl⟩ := (h.mem i b hb p).1 (mem_elements.1 hmem)
      cases hp.symm.trans hp'
      rfl
    · rintro rfl
      have hlt := h.slot_lt p pid hp
      exact ⟨_, List.getElem?_eq_getElem hlt,
        mem_elements.2 ((h.mem _ _ (List.getElem?_eq_getElem hlt) p).2 ⟨pid, hp, rfl⟩)⟩
  mem_stored b hb p hp := by
    obtain ⟨i, hi⟩ := List.mem_iff_getElem?.1 hb
    obtain ⟨pid, hpid, -⟩ := (h.mem i b hi p).1 (mem_elements.1 hp)
    exact (hstored p).1 (StdMap.mem_iff_get.2 ⟨pid, hpid⟩)
  nodup b hb := by
    obtain ⟨i, hi⟩ := List.mem_iff_getElem?.1 hb
    exact (h.indexed i b hi).nodup_elements ptrLess_strictWeakOrder

omit [Inhabited Peer] in
theorem bucket_natCast (i : Nat) : view.bucket i = view.pidPeers[i]? := by
  simp [bucket, slot]

omit [Inhabited Peer] in
/-- A peer that is listed for a PID is stored, in this bucket. -/
theorem Buckets.stored (h : Buckets view) {i : Nat}
    (hp : p ∈ (view.listPIDPeers i).getD []) :
    ∃ pid, view.peerToPid[p]? = some pid ∧ view.slot pid = i := by
  cases hb : view.bucket i with
  | none =>
    rw [listPIDPeers, hb] at hp
    cases hp
  | some b =>
    rw [listPIDPeers, hb] at hp
    rw [bucket_natCast] at hb
    exact (h.mem i b hb p).1 (mem_elements.1 hp)

omit [Inhabited Peer] in
/-- The peers in the bucket of a PID that is not the last one have this PID. -/
theorem Buckets.reportsKnown (h : Buckets view) {i : Nat}
    (hi : i + 1 < view.pidPeers.length ∨ ∀ p : Peer, p ∈ view.peerToPid → view.Known p) :
    view.ReportsKnown i := by
  have hknown : ∀ b : RandomAccessSet Peer, view.bucket i = some b → ∀ p, b.Mem p → view.Known p := by
    intro b hb p hp
    rw [bucket_natCast] at hb
    obtain ⟨pid, hpid, hslot⟩ := (h.mem i b hb p).1 hp
    rcases hi with hi | hall
    · refine ⟨pid, hpid, ?_⟩
      by_contra hneg
      rw [slot, if_neg hneg] at hslot
      omega
    · exact hall p (StdMap.mem_iff_get.2 ⟨pid, hpid⟩)
  constructor
  · intro l hl p hp
    obtain ⟨b, hb, rfl⟩ := Option.map_eq_some_iff.1 hl
    exact hknown b hb p (mem_elements.1 hp)
  · intro rand p hp
    obtain ⟨b, hb, hrand⟩ := Option.bind_eq_some_iff.1 hp
    split at hrand
    · cases hrand
    · next hsize =>
      cases hrand
      exact hknown b hb _ ⟨_, Nat.mod_lt _ (Nat.pos_of_ne_zero hsize), rfl⟩
  · unfold getNumPeers
    cases hb : view.bucket i with
    | none => exact .inl rfl
    | some b =>
      rw [bucket_natCast] at hb
      refine .inr ⟨b.elements, (h.indexed i b hb).nodup_elements ptrLess_strictWeakOrder,
        fun p hp => hknown b (by rwa [bucket_natCast]) p (mem_elements.1 hp), ?_⟩
      simp [elements]

omit [Inhabited Peer] in
/-- A view reports no peer without a PID exactly if there is no such peer, or its last bucket lies
behind the PIDs of the ISP. -/
theorem reportsKnown_iff (h : Buckets view) (n : Nat) :
    (∀ i < n, view.ReportsKnown i) ↔
      n < view.pidPeers.length ∨ ∀ p : Peer, p ∈ view.peerToPid → view.Known p := by
  constructor
  · intro hreports
    by_contra hcon
    push Not at hcon
    obtain ⟨hn, p, hp, hunknown⟩ := hcon
    obtain ⟨pid, hpid⟩ := StdMap.mem_iff_get.1 hp
    have hneg : ¬ 0 ≤ pid := fun hpos => hunknown ⟨pid, hpid, hpos⟩
    have hlt := h.slot_lt p pid hpid
    have hslot : view.slot pid = view.pidPeers.length - 1 := if_neg hneg
    have hmem := (h.mem _ _ (List.getElem?_eq_getElem hlt) p).2 ⟨pid, hpid, rfl⟩
    refine hunknown ((hreports (view.slot pid) (by omega)).list _ ?_ p (mem_elements.2 hmem))
    rw [listPIDPeers, bucket_natCast, List.getElem?_eq_getElem hlt]
    rfl
  · intro hcond i hi
    refine h.reportsKnown (hcond.imp_left fun hn => ?_)
    omega

end PerISPPeerDistribution

namespace ViewState

variable {isp} {s s' : ViewState Peer ISP Mgr} {ls : List (ViewStep Peer)}

/-- A step leaves no peer without a PID in a bucket whose index the ISP defines: the PID map does not
grow past the buckets while there is such a peer, and no such peer is added after it has. -/
def Fits (isp : ISP) (s : ViewState Peer ISP Mgr) : ViewStep Peer → Prop
  | .addPeer peer pid =>
    peer ∈ s.view.peerToPid ∨ s.view.peerToPid.isEmpty ∨
      (0 ≤ pid ∧ pid.toNat + 1 < s.view.pidPeers.length) ∨
      s.numPIDs isp < s.view.pidPeers.length
  | .setPIDMap map =>
    map.numTotalPIDs < s.view.pidPeers.length ∨ ∀ p : Peer, p ∈ s.view.peerToPid → s.view.Known p
  | _ => True

/-- One step keeps the buckets and stores the peers that are present. -/
theorem step_buckets {l : ViewStep Peer} (hstep : s.step isp l = some s')
    {stored : Set Peer} (h : s.view.Buckets) (hs : ∀ p : Peer, p ∈ s.view.peerToPid ↔ p ∈ stored) :
    s'.view.Buckets ∧ ∀ p : Peer, p ∈ s'.view.peerToPid ↔ p ∈ present stored l := by
  cases l with
  | addPeer peer pid =>
    cases hstep
    refine ⟨h.addPeerInternal .., fun p => ?_⟩
    rw [PerISPPeerDistribution.addPeer, PerISPPeerDistribution.mem_addPeerInternal, hs p]
    rfl
  | removePeer peer =>
    cases hstep
    refine ⟨h.removePeer peer, fun p => ?_⟩
    rw [StdMap.mem_iff_get, PerISPPeerDistribution.get_removePeer, present, Set.mem_ofPred_eq,
      ← hs p, StdMap.mem_iff_get]
    by_cases hp : peer = p
    · simp [hp]
    · simp [hp]
  | updatePeerDistribution peers behind =>
    rw [step, addPeersFromManager_eq] at hstep
    cases hstep
    refine ⟨PerISPPeerDistribution.buckets_empty.addAll .., fun p => ?_⟩
    rw [PerISPPeerDistribution.mem_addAll, Std.ExtTreeMap.map_fst_toList_eq_keys,
      Std.ExtTreeMap.mem_keys]
    exact or_iff_left Std.ExtTreeMap.not_mem_empty
  | setPIDMap map =>
    cases hstep
    exact ⟨h, hs⟩

theorem run_buckets {ok : ViewState Peer ISP Mgr → ViewStep Peer → Prop}
    (hr : Run (step isp) ok s ls s') {stored : Set Peer} (h : s.view.Buckets)
    (hs : ∀ p : Peer, p ∈ s.view.peerToPid ↔ p ∈ stored) :
    s'.view.Buckets ∧ ∀ p : Peer, p ∈ s'.view.peerToPid ↔ p ∈ ls.foldl present stored := by
  induction hr generalizing stored with
  | nil => exact ⟨h, hs⟩
  | cons _ hstep _ ih =>
    obtain ⟨h', hs'⟩ := step_buckets hstep h hs
    exact ih h' hs'

/-- The buckets, and no peer without a PID in a bucket whose index the ISP defines. -/
structure Apart (isp : ISP) (s : ViewState Peer ISP Mgr) : Prop where
  buckets : s.view.Buckets
  apart : s.numPIDs isp < s.view.pidPeers.length ∨
    ∀ p : Peer, p ∈ s.view.peerToPid → s.view.Known p

theorem step_apart {l : ViewStep Peer} (h : s.Apart isp) (hok : s.Fits isp l)
    (hstep : s.step isp l = some s') : s'.Apart isp := by
  have hself : ∀ p : Peer, p ∈ s.view.peerToPid ↔ p ∈ {p : Peer | p ∈ s.view.peerToPid} :=
    fun _ => Iff.rfl
  refine ⟨(step_buckets hstep h.buckets hself).1, ?_⟩
  cases l with
  | addPeer peer pid =>
    cases hstep
    simp only [PerISPPeerDistribution.addPeer]
    by_cases hempty : s.view.peerToPid.isEmpty
    · refine .inl ?_
      rw [PerISPPeerDistribution.length_addPeerInternal, PerISPPeerDistribution.allocate,
        if_pos hempty, List.length_replicate]
      exact Nat.lt_succ_self _
    have halloc : s.view.allocate (s.numPIDs isp) = s.view := if_neg hempty
    rw [PerISPPeerDistribution.length_addPeerInternal, halloc]
    rcases hok with hmem | hempty' | ⟨hpos, hlt⟩ | hlt
    · rw [PerISPPeerDistribution.addPeerInternal_of_mem hmem]
      exact h.apart
    · exact absurd hempty' hempty
    · refine h.apart.imp_right fun hknown p hp => ?_
      simp only [PerISPPeerDistribution.Known, PerISPPeerDistribution.get_addPeerInternal, halloc]
      split
      · refine ⟨_, rfl, ?_⟩
        rw [PerISPPeerDistribution.storedPid, if_neg (by omega)]
        exact hpos
      · next hne =>
        rw [PerISPPeerDistribution.mem_addPeerInternal] at hp
        rcases hp with rfl | hp
        · exact hknown p (not_not.1 fun hmem => hne ⟨rfl, hmem⟩)
        · exact hknown p hp
    · exact .inl hlt
  | removePeer peer =>
    cases hstep
    rcases h.apart with hlt | hknown
    · rcases PerISPPeerDistribution.length_removePeer s.view peer with hempty | hlength
      · exact .inr fun p hp => absurd hempty (StdMap.not_isEmpty_of_mem hp)
      · exact .inl (hlength ▸ hlt)
    · refine .inr fun p hp => ?_
      obtain ⟨pid, hpid⟩ := StdMap.mem_iff_get.1 hp
      have hget := hpid
      rw [PerISPPeerDistribution.get_removePeer] at hget
      split at hget
      · cases hget
      · obtain ⟨pid', hpid', hpos⟩ := hknown p (StdMap.mem_iff_get.2 ⟨pid, hget⟩)
        cases hget.symm.trans hpid'
        exact ⟨pid, hpid, hpos⟩
  | updatePeerDistribution peers behind =>
    rw [step, addPeersFromManager_eq] at hstep
    cases hstep
    by_cases hnil : peers.toList = []
    · refine .inr fun p hp => ?_
      rw [hnil] at hp
      exact absurd hp Std.ExtTreeMap.not_mem_empty
    · refine .inl ?_
      rw [PerISPPeerDistribution.length_addAll_empty, if_neg hnil]
      exact Nat.lt_succ_self _
  | setPIDMap map =>
    cases hstep
    rcases hok with hlt | hknown
    · refine .inl ?_
      simpa [numPIDs] using hlt
    · exact .inr hknown

/-- In every run the buckets hold the peers that are present, each in one place. If all steps fit the
buckets, none of the queries for a PID of the ISP reports a peer without a PID. -/
theorem buckets_of_run (isp : ISP) (o : Objects Peer ISP Mgr) :
    (∀ ls s', Run (step isp) (fun _ _ => True) ⟨o, {}⟩ ls s' →
      s'.view.WellBucketed (ls.foldl present ∅)) ∧
    (∀ ls s', Run (step isp) (Fits isp) ⟨o, {}⟩ ls s' →
      ∀ i < s'.numPIDs isp, s'.view.ReportsKnown i) := by
  constructor
  · intro ls s' hr
    have hempty : ∀ p : Peer, p ∈ ({} : PerISPPeerDistribution Peer).peerToPid ↔ p ∈ (∅ : Set Peer) :=
      fun p => iff_of_false Std.ExtTreeMap.not_mem_empty (Set.notMem_empty p)
    obtain ⟨hbuckets, hstored⟩ := run_buckets hr PerISPPeerDistribution.buckets_empty hempty
    exact hbuckets.wellBucketed hstored
  · intro ls s' hr
    have hstart : Apart isp (⟨o, {}⟩ : ViewState Peer ISP Mgr) :=
      ⟨PerISPPeerDistribution.buckets_empty, .inr fun p hp => absurd hp Std.ExtTreeMap.not_mem_empty⟩
    have hend := hr.invariant hstart fun _ _ _ h hok hstep => step_apart h hok hstep
    exact (PerISPPeerDistribution.reportsKnown_iff hend.buckets _).2 hend.apart

end ViewState

end

/-! ## A PID map that grows -/

/-- Objects without PIDs; all peers are at `10.0.0.0`. -/
def bareObjects : Objects Nat Nat Nat where
  pidMap _ := .ofPrefixes (fun _ _ => false) []
  peer _ := { ipAddress := .ofRaw .inet [false, false, false, false, true, false, true, false] 32 }
  ispManager _ := ∅

/-- A PID map with one PID, for `10.0.0.0/8`. -/
def onePIDMap : ISPPIDMap :=
  .ofPrefixes (fun _ _ => false)
    [(⟨"isp", 1, false⟩, [.ofRaw .inet [false, false, false, false, true, false, true, false] 8])]

/-- The PID with `10.0.0.0/8` at one ISP. -/
def tenAt (isp : Nat) : Objects Nat Nat Nat :=
  { bareObjects with pidMap := Function.update bareObjects.pidMap isp onePIDMap }

namespace ViewState

/-- A peer that joins after the PID map has been loaded. -/
theorem buckets_of_run_loaded :
    Run (step 0) (Fits 0) ⟨bareObjects, {}⟩ [.setPIDMap onePIDMap, .addPeer 7 0]
      ⟨tenAt 0,
        (({} : PerISPPeerDistribution Nat).addPeer 1 7 (bareObjects.peer 7) 0).2⟩ ∧
    ∀ i < 1, (({} : PerISPPeerDistribution Nat).addPeer 1 7 (bareObjects.peer 7) 0).2.ReportsKnown
      i := by
  have hr : Run (step 0) (Fits 0) ⟨bareObjects, {}⟩
      [.setPIDMap onePIDMap, .addPeer 7 0]
      ⟨tenAt 0,
        (({} : PerISPPeerDistribution Nat).addPeer 1 7 (bareObjects.peer 7) 0).2⟩ := by
    refine .cons (.inr fun p hp => absurd hp Std.ExtTreeMap.not_mem_empty) rfl ?_
    exact .cons (.inr (.inl (by decide))) rfl (.nil _)
  exact ⟨hr, (buckets_of_run 0 bareObjects).2 _ _ hr⟩

/-- A peer without a PID, and then a PID map with a PID: its index is the one of the last bucket. -/
theorem not_reportsKnown_grown :
    ∃ s', Run (step 0) (fun _ _ => True) ⟨bareObjects, {}⟩
      [.addPeer 7 errUnknownPID, .setPIDMap onePIDMap] s' ∧
      ¬ ∀ i < s'.numPIDs 0, s'.view.ReportsKnown i := by
  refine ⟨_, .cons trivial rfl (.cons trivial rfl (.nil _)), fun h => ?_⟩
  obtain ⟨pid, hpid, hpos⟩ := (h 0 (by decide)).list [7] (by decide) 7 List.mem_cons_self
  have hrecorded : (({} : PerISPPeerDistribution Nat).addPeer 0 7 (bareObjects.peer 7)
      errUnknownPID).2.peerToPid[7]? = some errUnknownPID := by decide
  cases hrecorded.symm.trans hpid
  exact absurd hpos (by decide)

end ViewState

end Alto.App
