import Alto.Verify.PeerBuckets

/-!
# The views of a manager

`addPeer` puts a peer into every view, under the PID that the view's ISP gives to it, and chooses the
longest match with an internal PID for its home. `removePeer` takes it out of every view, and a
rebuild starts from the manager's peers. So all views hold the peers of the manager, unless a view is
created after peers have joined: `addISP` leaves it empty.
-/

namespace Alto.App

open Common Lib RandomAccessSet

variable {Peer ISP Mgr : Type} [LinearOrder ISP]
variable {behind : ISP → Behind} {o : Objects Peer ISP Mgr} {p : Peer} {isp : ISP}

/-! ## The home of a peer -/

/-- The length of the prefix that a PID map finds for a peer. -/
def matchLength (behind : Behind) (o : Objects Peer ISP Mgr) (isp : ISP) (p : Peer) : Nat :=
  (((o.pidMap isp).lookup behind (o.peer p).ipAddress).2.map IPPrefix.length).getD 0

/-- A PID map finds an internal PID for a peer. -/
def Internal (behind : Behind) (o : Objects Peer ISP Mgr) (isp : ISP) (p : Peer) : Prop :=
  0 ≤ ((o.pidMap isp).lookup behind (o.peer p).ipAddress).1 ∧
    ((o.pidMap isp).lookup behind (o.peer p).ipAddress).1 < (o.pidMap isp).numIntraISPPIDs

/-- The ISP whose PID map has the longest match with an internal PID, the last one if there are
several, and `none` if there is none. -/
def IsHome (behind : ISP → Behind) (o : Objects Peer ISP Mgr) (isps : Set ISP) (p : Peer) :
    Option ISP → Prop
  | none => ∀ isp ∈ isps, ¬ Internal (behind isp) o isp p
  | some isp => isp ∈ isps ∧ Internal (behind isp) o isp p ∧
      ∀ isp' ∈ isps, Internal (behind isp') o isp' p →
        matchLength (behind isp') o isp' p < matchLength (behind isp) o isp p ∨
          matchLength (behind isp') o isp' p = matchLength (behind isp) o isp p ∧ isp' ≤ isp

theorem IsHome.unique {isps : Set ISP} {h h' : Option ISP} (hh : IsHome behind o isps p h)
    (hh' : IsHome behind o isps p h') : h = h' := by
  cases h with
  | none =>
    cases h' with
    | none => rfl
    | some isp' => exact absurd hh'.2.1 (hh isp' hh'.1)
  | some isp =>
    cases h' with
    | none => exact absurd hh.2.1 (hh' isp hh.1)
    | some isp' =>
      have hle := hh.2.2 isp' hh'.1 hh'.2.1
      have hle' := hh'.2.2 isp hh.1 hh.2.1
      rcases hle with hlt | ⟨heq, hle⟩
      · rcases hle' with hlt' | ⟨heq', -⟩ <;> omega
      · rcases hle' with hlt' | ⟨-, hle'⟩
        · omega
        · rw [le_antisymm hle' hle]

variable [LinearOrder Peer]

namespace PeerDistributionManager

variable {m : PeerDistributionManager Peer ISP}

/-- The variables for the home after the ISPs of a list. -/
structure HomeLoop (behind : ISP → Behind) (o : Objects Peer ISP Mgr) (p : Peer) (isps : List ISP)
    (loop : AddLoop Peer ISP) : Prop where
  home : IsHome behind o {isp | isp ∈ isps} p loop.homeISP
  pid : loop.homePID = match loop.homeISP with
    | none => errUnknownPID
    | some isp => ((o.pidMap isp).lookup (behind isp) (o.peer p).ipAddress).1
  longest : loop.longestPrefixLength = match loop.homeISP with
    | none => 0
    | some isp => matchLength (behind isp) o isp p

/-- One round for a match that is a candidate. -/
theorem HomeLoop.take {isps : List ISP} {loop loop' : AddLoop Peer ISP}
    (h : HomeLoop behind o p isps loop) (hlt : ∀ isp' ∈ isps, isp' < isp)
    (hin : Internal (behind isp) o isp p)
    (hlong : loop.longestPrefixLength ≤ matchLength (behind isp) o isp p)
    (hisp : loop'.homeISP = some isp)
    (hpid : loop'.homePID = ((o.pidMap isp).lookup (behind isp) (o.peer p).ipAddress).1)
    (hlength : loop'.longestPrefixLength = matchLength (behind isp) o isp p) :
    HomeLoop behind o p (isps ++ [isp]) loop' := by
  refine ⟨?_, by rw [hisp, hpid], by rw [hisp, hlength]⟩
  rw [hisp]
  refine ⟨List.mem_append.2 (.inr List.mem_cons_self), hin, fun isp' hmem hin' => ?_⟩
  rcases List.mem_append.1 hmem with hmem | hmem
  · have hhome := h.home
    cases hl : loop.homeISP with
    | none =>
      rw [hl] at hhome
      exact absurd hin' (hhome isp' hmem)
    | some best =>
      have hlongest : loop.longestPrefixLength = matchLength (behind best) o best p := by
        rw [h.longest, hl]
      rw [hl] at hhome
      have hbest : matchLength (behind isp') o isp' p ≤ matchLength (behind best) o best p := by
        rcases hhome.2.2 isp' hmem hin' with hlt' | ⟨heq, -⟩
        · exact hlt'.le
        · exact heq.le
      rw [hlongest] at hlong
      rcases (hbest.trans hlong).lt_or_eq with hlt' | heq
      · exact .inl hlt'
      · exact .inr ⟨heq, (hlt isp' hmem).le⟩
  · cases List.mem_singleton.1 hmem
    exact .inr ⟨rfl, le_rfl⟩

/-- One round for a match that is none. -/
theorem HomeLoop.skip {isps : List ISP} {loop loop' : AddLoop Peer ISP}
    (h : HomeLoop behind o p isps loop)
    (hskip : Internal (behind isp) o isp p →
      matchLength (behind isp) o isp p < loop.longestPrefixLength)
    (hisp : loop'.homeISP = loop.homeISP) (hpid : loop'.homePID = loop.homePID)
    (hlength : loop'.longestPrefixLength = loop.longestPrefixLength) :
    HomeLoop behind o p (isps ++ [isp]) loop' := by
  refine ⟨?_, by rw [hisp, hpid, h.pid], by rw [hisp, hlength, h.longest]⟩
  have hhome := h.home
  rw [hisp]
  cases hl : loop.homeISP with
  | none =>
    have hlongest : loop.longestPrefixLength = 0 := by rw [h.longest, hl]
    rw [hl] at hhome
    intro isp' hmem hin'
    rcases List.mem_append.1 hmem with hmem | hmem
    · exact hhome isp' hmem hin'
    · cases List.mem_singleton.1 hmem
      have := hskip hin'
      omega
  | some best =>
    have hlongest : loop.longestPrefixLength = matchLength (behind best) o best p := by
      rw [h.longest, hl]
    rw [hl] at hhome
    refine ⟨List.mem_append.2 (.inl hhome.1), hhome.2.1, fun isp' hmem hin' => ?_⟩
    rcases List.mem_append.1 hmem with hmem | hmem
    · exact hhome.2.2 isp' hmem hin'
    · cases List.mem_singleton.1 hmem
      exact .inl (hlongest ▸ hskip hin')

variable [Inhabited Peer]

/-- What a round of the loop does to the views. -/
theorem views_addPeerToView (loop : AddLoop Peer ISP) (x : ISP × PerISPPeerDistribution Peer) :
    (addPeerToView behind o p loop x).views =
      loop.views.insert x.1 (x.2.addPeer (o.pidMap x.1).numTotalPIDs p (o.peer p)
        (lookupPid (behind x.1) x.1 o p)).2 := by
  unfold addPeerToView lookupPid
  simp only
  split
  · rfl
  · unfold AddLoop.candidate
    simp only
    split
    · rfl
    · split <;> rfl

/-- A round keeps the home of the loop. -/
theorem HomeLoop.round {isps : List ISP} {loop : AddLoop Peer ISP}
    (h : HomeLoop behind o p isps loop) (x : ISP × PerISPPeerDistribution Peer)
    (hlt : ∀ isp' ∈ isps, isp' < x.1) :
    HomeLoop behind o p (isps ++ [x.1]) (addPeerToView behind o p loop x) := by
  unfold addPeerToView
  simp only
  split
  · next hneg => exact h.skip (fun hin => absurd hin.1 (not_le.2 hneg)) rfl rfl rfl
  next hpos =>
  unfold AddLoop.candidate
  simp only
  split
  · next hext => exact h.skip (fun hin => absurd hin.2 (not_lt.2 hext)) rfl rfl rfl
  next hint =>
  split
  · next hshort => exact h.skip (fun _ => hshort) rfl rfl rfl
  · next hlong =>
    exact h.take hlt ⟨not_lt.1 hpos, not_le.1 hint⟩ (not_lt.1 hlong) rfl rfl rfl

/-- The loop of `addPeer`. -/
theorem homeLoop_foldl (l : List (ISP × PerISPPeerDistribution Peer)) (isps : List ISP)
    (loop : AddLoop Peer ISP) (h : HomeLoop behind o p isps loop)
    (hsorted : (isps ++ l.map (·.1)).Pairwise (· < ·)) :
    HomeLoop behind o p (isps ++ l.map (·.1)) (l.foldl (addPeerToView behind o p) loop) := by
  induction l generalizing isps loop with
  | nil => simpa using h
  | cons x l ih =>
    have hsplit : isps ++ (x :: l).map (·.1) = isps ++ [x.1] ++ l.map (·.1) := by simp
    rw [hsplit] at hsorted ⊢
    refine ih _ _ (h.round x fun isp' hmem => ?_) hsorted
    have hpair := (List.pairwise_append.1 (List.pairwise_append.1 hsorted).1).2.2
    exact hpair isp' hmem x.1 List.mem_cons_self

theorem views_foldl (behind : ISP → Behind) (o : Objects Peer ISP Mgr) (p : Peer)
    (l : List (ISP × PerISPPeerDistribution Peer)) (loop : AddLoop Peer ISP) :
    (l.foldl (addPeerToView behind o p) loop).views =
      l.foldl (fun views x => views.insert x.1 (x.2.addPeer (o.pidMap x.1).numTotalPIDs p (o.peer p)
        (lookupPid (behind x.1) x.1 o p)).2) loop.views := by
  induction l generalizing loop with
  | nil => rfl
  | cons x l ih => rw [List.foldl_cons, List.foldl_cons, ih, views_addPeerToView]

/-- What `addPeer` does for a new peer. -/
structure AddsPeer (behind : ISP → Behind) (o : Objects Peer ISP Mgr)
    (m : PeerDistributionManager Peer ISP) (p : Peer) (o' : Objects Peer ISP Mgr)
    (m' : PeerDistributionManager Peer ISP) : Prop where
  peers : m'.peers = m.peers.insert p (PeerStats.ofPeer (o.peer p))
  views : ∀ isp : ISP, m'.views[isp]? = m.views[isp]?.map fun view =>
    (view.addPeer (o.pidMap isp).numTotalPIDs p (o.peer p) (lookupPid (behind isp) isp o p)).2
  pidMap : o'.pidMap = o.pidMap
  ispManager : o'.ispManager = o.ispManager
  other : ∀ q, q ≠ p → o'.peer q = o.peer q
  home : ∃ home, IsHome behind o {isp | isp ∈ m.views} p home ∧
    o'.peer p = match home with
      | none => o.peer p
      | some isp =>
        (o.peer p).setHome isp ((o.pidMap isp).lookup (behind isp) (o.peer p).ipAddress).1

theorem addPeer_spec (behind : ISP → Behind) (o : Objects Peer ISP Mgr) (hp : p ∉ m.peers) :
    AddsPeer behind o m p (m.addPeer behind o p).2.1 (m.addPeer behind o p).2.2 := by
  have hsorted : (m.views.toList.map (·.1)).Pairwise (· < ·) := by
    rw [Std.ExtTreeMap.map_fst_toList_eq_keys]
    exact Std.ExtTreeMap.ordered_keys.imp fun h => compare_lt_iff_lt.1 h
  have hstart : HomeLoop behind o p [] ({ views := m.views } : AddLoop Peer ISP) :=
    ⟨fun _ h => absurd h List.not_mem_nil, rfl, rfl⟩
  have hloop := homeLoop_foldl m.views.toList [] _ hstart hsorted
  have hviews := views_foldl behind o p m.views.toList ({ views := m.views } : AddLoop Peer ISP)
  have hset : {isp | isp ∈ [] ++ m.views.toList.map (·.1)} = {isp | isp ∈ m.views} := by
    ext isp
    rw [List.nil_append, Std.ExtTreeMap.map_fst_toList_eq_keys]
    exact Std.ExtTreeMap.mem_keys
  generalize hl : m.views.toList.foldl (addPeerToView behind o p)
    ({ views := m.views } : AddLoop Peer ISP) = loop at hloop hviews
  have hget : ∀ isp : ISP, loop.views[isp]? = m.views[isp]?.map fun view =>
      (view.addPeer (o.pidMap isp).numTotalPIDs p (o.peer p) (lookupPid (behind isp) isp o p)).2 := by
    intro isp
    rw [hviews]
    exact @StdMap.get_foldl_insert_toList _ _ _ (fun isp view =>
      (view.addPeer (o.pidMap isp).numTotalPIDs p (o.peer p) (lookupPid (behind isp) isp o p)).2)
      m.views isp
  have hhome := hloop.home
  have hpid := hloop.pid
  rw [hset] at hhome
  simp only [addPeer, if_neg hp, hl]
  cases hisp : loop.homeISP with
  | none =>
    rw [hisp] at hhome
    exact ⟨rfl, hget, rfl, rfl, fun _ _ => rfl, none, hhome, rfl⟩
  | some isp =>
    rw [hisp] at hhome hpid
    refine ⟨rfl, hget, rfl, rfl, fun q hq => Function.update_of_ne hq .., some isp, hhome, ?_⟩
    simp only [Objects.setPeer, Function.update_self]
    rw [hpid]

/-! ## All views hold all peers -/

/-- Every view has its peers in buckets, and they are the manager's peers. -/
def Consistent (m : PeerDistributionManager Peer ISP) : Prop :=
  ∀ (isp : ISP) (view : PerISPPeerDistribution Peer), m.views[isp]? = some view →
    view.Buckets ∧ ∀ p : Peer, p ∈ view.peerToPid ↔ p ∈ m.peers

omit [Inhabited Peer] in
theorem consistent_empty : Consistent ({} : PeerDistributionManager Peer ISP) := by
  intro isp view h
  simp at h

theorem Consistent.addPeer (h : m.Consistent) (behind : ISP → Behind) (o : Objects Peer ISP Mgr)
    (p : Peer) : (m.addPeer behind o p).2.2.Consistent := by
  by_cases hp : p ∈ m.peers
  · rwa [PeerDistributionManager.addPeer, if_pos hp]
  have hspec := addPeer_spec behind o hp
  intro isp view' hview'
  rw [hspec.views] at hview'
  obtain ⟨view, hview, rfl⟩ := Option.map_eq_some_iff.1 hview'
  obtain ⟨hbuckets, hpeers⟩ := h isp view hview
  refine ⟨hbuckets.addPeerInternal .., fun q => ?_⟩
  rw [PerISPPeerDistribution.addPeer, PerISPPeerDistribution.mem_addPeerInternal, hpeers, hspec.peers,
    Std.ExtTreeMap.mem_insert, compare_eq_iff_eq, eq_comm]

omit [Inhabited Peer] in
theorem Consistent.removePeer (h : m.Consistent) (p : Peer) : (m.removePeer p).2.Consistent := by
  intro isp view' hview'
  rw [PeerDistributionManager.removePeer, Std.ExtTreeMap.getElem?_map] at hview'
  obtain ⟨view, hview, rfl⟩ := Option.map_eq_some_iff.1 hview'
  obtain ⟨hbuckets, hpeers⟩ := h isp view hview
  refine ⟨hbuckets.removePeer p, fun q => ?_⟩
  rw [PeerDistributionManager.removePeer, Std.ExtTreeMap.mem_erase, ← hpeers, StdMap.mem_iff_get,
    PerISPPeerDistribution.get_removePeer, StdMap.mem_iff_get, ne_eq, compare_eq_iff_eq]
  by_cases hq : p = q
  · simp [hq]
  · simp [hq]

omit [Inhabited Peer] in
theorem Consistent.updatePeerStats (h : m.Consistent) (o : Objects Peer ISP Mgr) (p : Peer) :
    (m.updatePeerStats o p).2.Consistent := by
  unfold PeerDistributionManager.updatePeerStats
  cases hp : m.peers[p]? with
  | none => exact h
  | some prev =>
    intro isp view' hview'
    rw [Std.ExtTreeMap.getElem?_map] at hview'
    obtain ⟨view, hview, rfl⟩ := Option.map_eq_some_iff.1 hview'
    obtain ⟨hbuckets, hpeers⟩ := h isp view hview
    refine ⟨hbuckets.updatePeerStats p _, fun q => ?_⟩
    rw [PerISPPeerDistribution.peerToPid_updatePeerStats, hpeers, Std.ExtTreeMap.mem_insert,
      compare_eq_iff_eq]
    refine (or_iff_right_of_imp ?_).symm
    rintro rfl
    exact StdMap.mem_iff_get.2 ⟨prev, hp⟩

omit [Inhabited Peer] in
theorem Consistent.addISP (h : m.Consistent) (isp : ISP) (hok : isp ∈ m.views ∨ m.peers.isEmpty) :
    (m.addISP isp).2.Consistent := by
  unfold PeerDistributionManager.addISP
  split
  · exact h
  next hnew =>
  have hempty := hok.resolve_left hnew
  intro isp' view hview
  rw [StdMap.get_insert] at hview
  split at hview
  · cases hview
    refine ⟨PerISPPeerDistribution.buckets_empty, fun q => ?_⟩
    rw [Std.ExtTreeMap.isEmpty_iff.1 hempty]
    exact iff_of_false Std.ExtTreeMap.not_mem_empty Std.ExtTreeMap.not_mem_empty
  · exact h isp' view hview

omit [Inhabited Peer] in
theorem Consistent.removeISP (h : m.Consistent) (isp : ISP) : (m.removeISP isp).Consistent := by
  intro isp' view hview
  rw [PeerDistributionManager.removeISP, StdMap.get_erase] at hview
  split at hview
  · cases hview
  · exact h isp' view hview

theorem Consistent.updatePeerDistribution (h : m.Consistent) (behind : Peer → Behind)
    (o : Objects Peer ISP Mgr) (isp : ISP) :
    (m.updatePeerDistribution behind o isp).2.2.Consistent := by
  unfold PeerDistributionManager.updatePeerDistribution
  split
  · rw [addPeersFromManager_eq]
    intro isp' view hview
    rw [StdMap.get_insert] at hview
    split at hview
    · cases hview
      refine ⟨PerISPPeerDistribution.buckets_empty.addAll .., fun q => ?_⟩
      rw [PerISPPeerDistribution.mem_addAll, Std.ExtTreeMap.map_fst_toList_eq_keys,
        Std.ExtTreeMap.mem_keys]
      exact or_iff_left Std.ExtTreeMap.not_mem_empty
    · exact h isp' view hview
  · exact h

/-! ## The managed ISPs and the peers -/

theorem mem_views_addPeer : isp ∈ (m.addPeer behind o p).2.2.views ↔ isp ∈ m.views := by
  by_cases hp : p ∈ m.peers
  · rw [addPeer, if_pos hp]
  · rw [StdMap.mem_iff_get, (addPeer_spec behind o hp).views, StdMap.mem_iff_get]
    simp

theorem ispManager_addPeer : (m.addPeer behind o p).2.1.ispManager = o.ispManager := by
  by_cases hp : p ∈ m.peers
  · rw [addPeer, if_pos hp]
  · exact (addPeer_spec behind o hp).ispManager

omit [Inhabited Peer] in
theorem mem_views_removePeer : isp ∈ (m.removePeer p).2.views ↔ isp ∈ m.views := by
  rw [removePeer, Std.ExtTreeMap.mem_map]

omit [Inhabited Peer] in
theorem mem_views_updatePeerStats : isp ∈ (m.updatePeerStats o p).2.views ↔ isp ∈ m.views := by
  unfold updatePeerStats
  split
  · rfl
  · exact Std.ExtTreeMap.mem_map

theorem mem_views_updatePeerDistribution {behind : Peer → Behind} {isp' : ISP} :
    isp ∈ (m.updatePeerDistribution behind o isp').2.2.views ↔ isp ∈ m.views := by
  unfold updatePeerDistribution
  split
  · next h =>
    rw [Std.ExtTreeMap.mem_insert, compare_eq_iff_eq]
    refine or_iff_right_of_imp ?_
    rintro rfl
    exact h
  · rfl

theorem ispManager_updatePeerDistribution {behind : Peer → Behind} :
    (m.updatePeerDistribution behind o isp).2.1.ispManager = o.ispManager := by
  unfold updatePeerDistribution
  split
  · rw [addPeersFromManager_eq]
    rfl
  · rfl

omit [Inhabited Peer] in
/-- `addISP` for all ISPs of a list, before any peer has joined. -/
theorem Consistent.addISPs (h : m.Consistent) (hempty : m.peers.isEmpty) (isps : List ISP) :
    (isps.foldl (fun m isp => (m.addISP isp).2) m).Consistent ∧
      ∀ isp, isp ∈ (isps.foldl (fun m isp => (m.addISP isp).2) m).views ↔
        isp ∈ isps ∨ isp ∈ m.views := by
  induction isps generalizing m with
  | nil => exact ⟨h, fun isp => by simp⟩
  | cons x isps ih =>
    have hpeers : (m.addISP x).2.peers = m.peers := by
      unfold PeerDistributionManager.addISP
      split <;> rfl
    have hviews : ∀ isp, isp ∈ (m.addISP x).2.views ↔ isp = x ∨ isp ∈ m.views := by
      intro isp
      unfold PeerDistributionManager.addISP
      split
      · next hx =>
        refine (or_iff_right_of_imp ?_).symm
        rintro rfl
        exact hx
      · rw [Std.ExtTreeMap.mem_insert, compare_eq_iff_eq, eq_comm]
    obtain ⟨hcons, hmem⟩ := ih (h.addISP x (.inr hempty)) (hpeers ▸ hempty)
    refine ⟨hcons, fun isp => ?_⟩
    rw [List.foldl_cons, hmem, hviews, List.mem_cons]
    exact or_left_comm.trans or_assoc.symm

/-- The peers stored in a view, and those in its buckets, are the manager's peers. -/
def HoldsPeers (m : PeerDistributionManager Peer ISP) : Prop :=
  ∀ (isp : ISP) (view : PerISPPeerDistribution Peer), m.views[isp]? = some view →
    ∀ p : Peer, (p ∈ view.peerToPid ↔ p ∈ m.peers) ∧
      ((∃ b ∈ view.pidPeers, p ∈ b.elements) ↔ p ∈ m.peers)

omit [Inhabited Peer] in
theorem Consistent.holdsPeers (h : m.Consistent) : m.HoldsPeers := by
  intro isp view hview p
  obtain ⟨hbuckets, hpeers⟩ := h isp view hview
  refine ⟨hpeers p, ?_⟩
  have hself : ∀ p : Peer, p ∈ view.peerToPid ↔ p ∈ {p : Peer | p ∈ view.peerToPid} :=
    fun _ => Iff.rfl
  have hw := hbuckets.wellBucketed hself
  rw [← hpeers p]
  constructor
  · rintro ⟨b, hb, hmem⟩
    exact hw.mem_stored b hb p hmem
  · intro hmem
    obtain ⟨pid, hpid⟩ := StdMap.mem_iff_get.1 hmem
    obtain ⟨b, hb, hp⟩ := (hw.bucket_iff p pid hpid _).2 rfl
    exact ⟨b, List.mem_of_getElem? hb, hp⟩

end PeerDistributionManager

/-! ## Runs -/

variable [Inhabited Peer]

/-- A manager with the objects around it. -/
structure ManagerState (Peer ISP Mgr : Type) [LinearOrder Peer] [LinearOrder ISP] where
  objects : Objects Peer ISP Mgr
  manager : PeerDistributionManager Peer ISP

/-- A call of the manager's methods, with the bytes behind the key of each of its lookups, a new PID
map of an ISP, or a change of a peer's object by the application. -/
inductive ManagerStep (Peer ISP : Type) where
  | addISP (isp : ISP)
  | removeISP (isp : ISP)
  | addPeer (peer : Peer) (behind : ISP → Behind)
  | removePeer (peer : Peer)
  | updatePeerStats (peer : Peer)
  | updatePeerDistribution (isp : ISP) (behind : Peer → Behind)
  | setPIDMap (isp : ISP) (map : ISPPIDMap)
  | setPeer (peer : Peer) (object : P4PPeerBase ISP)

namespace ManagerState

def step (s : ManagerState Peer ISP Mgr) :
    ManagerStep Peer ISP → Option (ManagerState Peer ISP Mgr)
  | .addISP isp => some { s with manager := (s.manager.addISP isp).2 }
  | .removeISP isp => some { s with manager := s.manager.removeISP isp }
  | .addPeer peer behind =>
    let result := s.manager.addPeer behind s.objects peer
    some ⟨result.2.1, result.2.2⟩
  | .removePeer peer => some { s with manager := (s.manager.removePeer peer).2 }
  | .updatePeerStats peer => some { s with manager := (s.manager.updatePeerStats s.objects peer).2 }
  | .updatePeerDistribution isp behind =>
    let result := s.manager.updatePeerDistribution behind s.objects isp
    some ⟨result.2.1, result.2.2⟩
  | .setPIDMap isp map =>
    some { s with objects := { s.objects with
      pidMap := Function.update s.objects.pidMap isp map } }
  | .setPeer peer object => some { s with objects := s.objects.setPeer peer object }

/-- An ISP is only added as long as no peer has joined. -/
def Early (s : ManagerState Peer ISP Mgr) : ManagerStep Peer ISP → Prop
  | .addISP isp => isp ∈ s.manager.views ∨ s.manager.peers.isEmpty
  | _ => True

theorem step_consistent {s s' : ManagerState Peer ISP Mgr} {l : ManagerStep Peer ISP}
    (h : s.manager.Consistent) (hok : s.Early l) (hstep : s.step l = some s') :
    s'.manager.Consistent := by
  cases l with
  | addISP isp =>
    cases hstep
    exact h.addISP isp hok
  | removeISP isp =>
    cases hstep
    exact h.removeISP isp
  | addPeer peer behind =>
    cases hstep
    exact h.addPeer behind s.objects peer
  | removePeer peer =>
    cases hstep
    exact h.removePeer peer
  | updatePeerStats peer =>
    cases hstep
    exact h.updatePeerStats s.objects peer
  | updatePeerDistribution isp behind =>
    cases hstep
    exact h.updatePeerDistribution behind s.objects isp
  | setPIDMap isp map =>
    cases hstep
    exact h
  | setPeer peer object =>
    cases hstep
    exact h

end ManagerState

/-- A selection manager with the objects around it. -/
structure SelectionState (Peer ISP Mgr : Type) [LinearOrder Peer] [LinearOrder ISP] where
  objects : Objects Peer ISP Mgr
  selection : P4PSelectionManager Peer ISP Mgr

/-- A call of the selection manager's methods, with the bytes behind the key of each of its lookups, a
call of an ISP manager's methods, a new PID map of an ISP, or a change of a peer's object by the
application. -/
inductive SelectionStep (Peer ISP Mgr : Type) where
  | setISPManager (mgr : Mgr)
  | addPeer (peer : Peer) (behind : ISP → Behind)
  | removePeer (peer : Peer)
  | updatePeerStats (peer : Peer)
  | updatePeerDistribution (isp : ISP) (behind : Peer → Behind)
  | addISP (mgr : Mgr) (name : String) (isp : ISP)
  | removeISP (mgr : Mgr) (name : String)
  | setPIDMap (isp : ISP) (map : ISPPIDMap)
  | setPeer (peer : Peer) (object : P4PPeerBase ISP)

namespace SelectionState

variable [DecidableEq Mgr]

def step (s : SelectionState Peer ISP Mgr) :
    SelectionStep Peer ISP Mgr → Option (SelectionState Peer ISP Mgr)
  | .setISPManager mgr => some { s with selection := (s.selection.setISPManager s.objects mgr).2 }
  | .addPeer peer behind =>
    let result := s.selection.addPeer behind s.objects peer
    some ⟨result.2.1, result.2.2⟩
  | .removePeer peer => some { s with selection := (s.selection.removePeer peer).2 }
  | .updatePeerStats peer =>
    some { s with selection := (s.selection.updatePeerStats s.objects peer).2 }
  | .updatePeerDistribution isp behind =>
    let result := s.selection.updatePeerDistribution behind s.objects isp
    some ⟨result.2.1, result.2.2⟩
  | .addISP mgr name isp => some { s with objects := s.objects.addISP mgr name isp }
  | .removeISP mgr name => some { s with objects := s.objects.removeISP mgr name }
  | .setPIDMap isp map =>
    some { s with objects := { s.objects with
      pidMap := Function.update s.objects.pidMap isp map } }
  | .setPeer peer object => some { s with objects := s.objects.setPeer peer object }

end SelectionState

/-- The ISPs that an ISP manager lists. -/
def listed (o : Objects Peer ISP Mgr) (mgr : Mgr) : Set ISP :=
  {isp | ∃ name : String, (o.ispManager mgr)[name]? = some isp}

namespace SelectionState

variable {s s' : SelectionState Peer ISP Mgr}

/-- The managed ISPs are those of the assigned ISP manager. -/
def ManagesListed (s : SelectionState Peer ISP Mgr) : Prop :=
  ∀ mgr, s.selection.ispMgr = some mgr →
    ∀ isp, isp ∈ s.selection.ispPeers.views ↔ isp ∈ listed s.objects mgr

/-- A selection manager as a constructor returns it. -/
def Constructed (s : SelectionState Peer ISP Mgr) : Prop :=
  s.selection = {} ∨ ∃ mgr, s.selection = .ofISPManager s.objects mgr

/-- The constructor that takes an ISP manager is only used with one that lists no ISP. -/
def Started (s : SelectionState Peer ISP Mgr) : Prop :=
  ∀ mgr, s.selection.ispMgr = some mgr → (s.objects.ispManager mgr).isEmpty

variable [DecidableEq Mgr]

/-- The assigned ISP manager keeps listing the same ISPs. -/
def Fixed (s : SelectionState Peer ISP Mgr) : SelectionStep Peer ISP Mgr → Prop
  | .addISP mgr name isp =>
    s.selection.ispMgr = some mgr → listed (s.objects.addISP mgr name isp) mgr = listed s.objects mgr
  | .removeISP mgr name =>
    s.selection.ispMgr = some mgr → listed (s.objects.removeISP mgr name) mgr = listed s.objects mgr
  | _ => True

omit [LinearOrder Peer] [LinearOrder ISP] [Inhabited Peer] [DecidableEq Mgr] in
theorem mem_listed_iff {o : Objects Peer ISP Mgr} {mgr : Mgr} {isp : ISP} :
    isp ∈ (o.ispManager mgr).toList.map (·.2) ↔ isp ∈ listed o mgr := by
  simp only [List.mem_map, Prod.exists, Std.ExtTreeMap.mem_toList_iff_getElem?_eq_some,
    exists_eq_right]
  rfl

/-- The views hold the peers of the manager, and they are the views of the listed ISPs. Before an ISP
manager is assigned there are neither. -/
structure Good (s : SelectionState Peer ISP Mgr) : Prop where
  consistent : s.selection.ispPeers.Consistent
  managesListed : s.ManagesListed
  unassigned : s.selection.ispMgr = none → s.selection.ispPeers = {}

omit [Inhabited Peer] [DecidableEq Mgr] in
theorem good_of_constructed (h : s.Constructed) (hstart : s.Started) : s.Good := by
  obtain ⟨o, selection⟩ := s
  rcases h with h | ⟨mgr, h⟩
  · subst h
    exact ⟨PeerDistributionManager.consistent_empty, fun _ h => (nomatch h), fun _ => rfl⟩
  · change selection = .ofISPManager o mgr at h
    subst h
    refine ⟨PeerDistributionManager.consistent_empty, fun mgr' h isp => ?_, fun h => nomatch h⟩
    cases h
    have hempty := hstart mgr rfl
    refine iff_of_false Std.ExtTreeMap.not_mem_empty ?_
    rintro ⟨name, hname⟩
    rw [Std.ExtTreeMap.isEmpty_iff.1 hempty] at hname
    simp at hname

omit [Inhabited Peer] [DecidableEq Mgr] in
/-- What is kept if the ISP managers and the views' ISPs stay. -/
theorem Good.of_same (h : s.Good) (hmgr : s'.selection.ispMgr = s.selection.ispMgr)
    (hcons : s'.selection.ispPeers.Consistent)
    (hviews : ∀ isp, isp ∈ s'.selection.ispPeers.views ↔ isp ∈ s.selection.ispPeers.views)
    (hlisted : ∀ mgr, s.selection.ispMgr = some mgr → listed s'.objects mgr = listed s.objects mgr)
    (hnone : s.selection.ispMgr = none → s'.selection.ispPeers = {}) : s'.Good where
  consistent := hcons
  managesListed mgr hm isp := by
    rw [hmgr] at hm
    rw [hviews, hlisted mgr hm]
    exact h.managesListed mgr hm isp
  unassigned hm := hnone (hmgr ▸ hm)

omit [Inhabited Peer] [DecidableEq Mgr] in
theorem Good.setISPManager (h : s.Good) (mgr : Mgr) :
    Good { s with selection := (s.selection.setISPManager s.objects mgr).2 } := by
  unfold P4PSelectionManager.setISPManager
  split
  · exact h
  next hnone =>
  have hempty : s.selection.ispPeers = {} := h.unassigned (by simpa using hnone)
  obtain ⟨hcons, hmem⟩ := h.consistent.addISPs
    (by rw [hempty]; exact Std.ExtTreeMap.isEmpty_empty) ((s.objects.ispManager mgr).toList.map (·.2))
  refine ⟨hcons, fun mgr' hmgr isp => ?_, fun h => nomatch h⟩
  cases hmgr
  refine (hmem isp).trans ?_
  rw [mem_listed_iff, hempty]
  exact or_iff_left Std.ExtTreeMap.not_mem_empty

theorem Good.step {l : SelectionStep Peer ISP Mgr} (h : s.Good) (hok : s.Fixed l)
    (hstep : s.step l = some s') : s'.Good := by
  cases l with
  | setISPManager mgr =>
    cases hstep
    exact h.setISPManager mgr
  | addPeer peer behind =>
    obtain rfl := Option.some.inj hstep
    cases hm : s.selection.ispMgr with
    | none =>
      have hsame : s.selection.addPeer behind s.objects peer = (false, s.objects, s.selection) := by
        simp [P4PSelectionManager.addPeer, hm]
      rw [hsame]
      exact h
    | some mgr =>
      have hadd : s.selection.addPeer behind s.objects peer =
          ((s.selection.ispPeers.addPeer behind s.objects peer).1,
            (s.selection.ispPeers.addPeer behind s.objects peer).2.1,
            { s.selection with
              ispPeers := (s.selection.ispPeers.addPeer behind s.objects peer).2.2 }) := by
        simp [P4PSelectionManager.addPeer, hm]
      rw [hadd]
      refine h.of_same rfl (h.consistent.addPeer behind s.objects peer)
        (fun isp => PeerDistributionManager.mem_views_addPeer) (fun mgr _ => ?_)
        (fun hnone => nomatch hm.symm.trans hnone)
      unfold listed
      rw [PeerDistributionManager.ispManager_addPeer]
  | removePeer peer =>
    cases hstep
    refine h.of_same rfl (h.consistent.removePeer peer)
      (fun isp => PeerDistributionManager.mem_views_removePeer) (fun _ _ => rfl) (fun hnone => ?_)
    simp only [P4PSelectionManager.removePeer]
    rw [h.unassigned hnone]
    rfl
  | updatePeerStats peer =>
    cases hstep
    refine h.of_same rfl (h.consistent.updatePeerStats s.objects peer)
      (fun isp => PeerDistributionManager.mem_views_updatePeerStats) (fun _ _ => rfl)
      (fun hnone => ?_)
    simp only [P4PSelectionManager.updatePeerStats]
    rw [h.unassigned hnone]
    rfl
  | updatePeerDistribution isp behind =>
    obtain rfl := Option.some.inj hstep
    refine h.of_same rfl (h.consistent.updatePeerDistribution behind s.objects isp)
      (fun isp => PeerDistributionManager.mem_views_updatePeerDistribution) (fun mgr _ => ?_)
      (fun hnone => ?_)
    · unfold listed
      simp only [P4PSelectionManager.updatePeerDistribution,
        PeerDistributionManager.ispManager_updatePeerDistribution]
    · simp only [P4PSelectionManager.updatePeerDistribution]
      rw [h.unassigned hnone]
      rfl
  | addISP mgr name isp =>
    cases hstep
    refine h.of_same rfl h.consistent (fun _ => Iff.rfl) (fun mgr' hm => ?_) h.unassigned
    by_cases hmgr : mgr' = mgr
    · subst hmgr
      exact hok hm
    · unfold listed Objects.addISP
      simp only [Function.update_of_ne hmgr]
  | removeISP mgr name =>
    cases hstep
    refine h.of_same rfl h.consistent (fun _ => Iff.rfl) (fun mgr' hm => ?_) h.unassigned
    by_cases hmgr : mgr' = mgr
    · subst hmgr
      exact hok hm
    · unfold listed Objects.removeISP
      simp only [Function.update_of_ne hmgr]
  | setPIDMap isp map =>
    cases hstep
    exact h.of_same rfl h.consistent (fun _ => Iff.rfl) (fun _ _ => rfl) h.unassigned
  | setPeer peer object =>
    cases hstep
    exact h.of_same rfl h.consistent (fun _ => Iff.rfl) (fun _ _ => rfl) h.unassigned

end SelectionState

/-- Every view holds the peers of its manager, in every run in which ISPs are only added before the
first peer. A selection manager that has been given its ISP manager by `setISPManager`, or by the
constructor if it listed no ISP, also has exactly the views of the listed ISPs, as long as the ISP
manager keeps listing the same ones. -/
theorem views_hold_peers [DecidableEq Mgr] :
    (∀ (o : Objects Peer ISP Mgr) ls s', Run ManagerState.step ManagerState.Early ⟨o, {}⟩ ls s' →
      s'.manager.HoldsPeers) ∧
    (∀ (s : SelectionState Peer ISP Mgr) ls s', s.Constructed → s.Started →
      Run SelectionState.step SelectionState.Fixed s ls s' →
        s'.selection.ispPeers.HoldsPeers ∧ s'.ManagesListed) := by
  constructor
  · intro o ls s' hr
    have hend := hr.invariant (I := fun s => s.manager.Consistent)
      PeerDistributionManager.consistent_empty
      fun _ _ _ h hok hstep => ManagerState.step_consistent h hok hstep
    exact hend.holdsPeers
  · intro s ls s' hs hstart hr
    have hend := hr.invariant (SelectionState.good_of_constructed hs hstart)
      fun _ _ _ h hok hstep => h.step hok hstep
    exact ⟨hend.consistent.holdsPeers, hend.managesListed⟩

/-- The objects with one ISP in every ISP manager. -/
def oneISP : Objects Nat Nat Nat :=
  { bareObjects with ispManager := fun _ => (∅ : StdMap String Nat).insert "isp" 0 }

/-- An ISP and then a peer, and a selection manager that is given its ISP manager before the peer. -/
theorem views_hold_peers_one :
    (∃ s', Run ManagerState.step ManagerState.Early ⟨oneISP, {}⟩
      [.addISP 0, .addPeer 7 fun _ _ _ => false] s' ∧ s'.manager.HoldsPeers) ∧
    (∃ s', Run SelectionState.step SelectionState.Fixed ⟨oneISP, {}⟩
      [.setISPManager 3, .addPeer 7 fun _ _ _ => false] s' ∧
        s'.selection.ispPeers.HoldsPeers ∧ s'.ManagesListed) := by
  constructor
  · have hr : Run ManagerState.step ManagerState.Early ⟨oneISP, {}⟩
        [.addISP 0, .addPeer 7 fun _ _ _ => false] _ :=
      .cons (.inr rfl) rfl (.cons trivial rfl (.nil _))
    exact ⟨_, hr, views_hold_peers.1 _ _ _ hr⟩
  · have hr : Run SelectionState.step SelectionState.Fixed ⟨oneISP, {}⟩
        [.setISPManager 3, .addPeer 7 fun _ _ _ => false] _ :=
      .cons trivial rfl (.cons trivial rfl (.nil _))
    exact ⟨_, hr, views_hold_peers.2 _ _ _ (.inl rfl) (fun _ h => by cases h) hr⟩

/-- A view that is created after a peer has joined does not have the peer, and a selection manager
whose constructor is given an ISP manager has no view for its ISP. -/
theorem not_views_hold_peers :
    (∃ s', Run ManagerState.step (fun _ _ => True) ⟨oneISP, {}⟩
      [.addPeer 7 fun _ _ _ => false, .addISP 0] s' ∧ ¬ s'.manager.HoldsPeers) ∧
    SelectionState.Constructed ⟨oneISP, .ofISPManager oneISP 3⟩ ∧
    ¬ SelectionState.ManagesListed ⟨oneISP, .ofISPManager oneISP 3⟩ := by
  refine ⟨⟨_, .cons trivial rfl (.cons trivial rfl (.nil _)), fun h => ?_⟩, .inr ⟨3, rfl⟩,
    fun h => ?_⟩
  · exact absurd ((h 0 _ (StdMap.get_insert.trans (if_pos rfl)) 7).1.2 (by decide))
      Std.ExtTreeMap.not_mem_empty
  · exact absurd ((h 3 rfl 0).2 ⟨"isp", by decide⟩) Std.ExtTreeMap.not_mem_empty

end Alto.App
