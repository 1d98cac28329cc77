import Mathlib
import Alto.Lib.MapEntries
import Alto.Verify.PeerManager

/-!
# The statistics of a swarm

The counters of a PID should be the sums of what the peers in it have last reported. They are as long
as no peer in a PID is a seed, has a rate of its own or active peers, or leaves: `SwarmState::update`
adds the seeds to the upload capacity, `getDownloadRate` returns the download capacity, the rates and
active peers are never read from the peer, and `removePeer` subtracts nothing.
-/

namespace Alto.App

open Common Lib RandomAccessSet

variable {Peer ISP Mgr : Type} [LinearOrder Peer]

/-! ## What a peer reports -/

namespace PeerStats

/-- What the methods of a peer return. -/
def reported (object : P4PPeerBase ISP) : PeerStats where
  isSeed := object.isSeeder
  uploadCap := object.uploadCapacity
  downloadCap := object.downloadCapacity
  uploadRate := object.currentUploadRate
  downloadRate := object.currentDownloadRate
  numActivePeers := object.numActivePeers

/-- What the manager remembers of it. -/
def remembered (r : PeerStats) : PeerStats where
  isSeed := r.isSeed
  uploadCap := r.uploadCap
  downloadCap := r.downloadCap

/-- A leecher without an upload rate and active peers, that downloads at its capacity. -/
structure Plain (r : PeerStats) : Prop where
  isSeed : r.isSeed = false
  uploadRate : r.uploadRate = 0
  downloadRate : r.downloadRate = r.downloadCap
  numActivePeers : r.numActivePeers = 0

end PeerStats

/-! ## The counters of a view -/

namespace PerISPPeerDistribution

variable {view : PerISPPeerDistribution Peer} {r r' : Peer → PeerStats} {p : Peer} {pid : Int}
variable {n : Nat}

/-- The peers in a PID. -/
def inPid (view : PerISPPeerDistribution Peer) (pid : Int) : List Peer :=
  (view.peerToPid.toList.filter (·.2 = pid)).map (·.1)

/-- The sum of a statistic over the peers in a PID. -/
def total {N : Type} [AddCommMonoid N] (view : PerISPPeerDistribution Peer) (pid : Int)
    (f : Peer → N) : N :=
  ((view.inPid pid).map f).sum

theorem mem_inPid : p ∈ view.inPid pid ↔ view.peerToPid[p]? = some pid := by
  simp [inPid, StdMap.mem_toList]

/-- The getters return the sums over the peers in the PID. -/
structure Exact (view : PerISPPeerDistribution Peer) (r : Peer → PeerStats) (pid : Int) : Prop where
  numSeeds : view.swarmState.getNumSeeds pid = view.total pid fun p => if (r p).isSeed then 1 else 0
  numLeechers : view.swarmState.getNumLeechers pid =
    view.total pid fun p => if (r p).isSeed then 0 else 1
  uploadCapacity : view.swarmState.getUploadCapacity pid = view.total pid fun p => (r p).uploadCap
  downloadCapacity : view.swarmState.getDownloadCapacity pid =
    view.total pid fun p => (r p).downloadCap
  uploadRate : view.swarmState.getUploadRate pid = view.total pid fun p => (r p).uploadRate
  downloadRate : view.swarmState.getDownloadRate pid = view.total pid fun p => (r p).downloadRate
  numActivePeers : view.swarmState.getNumActivePeers pid =
    view.total pid fun p => (r p).numActivePeers

/-! ### Sums -/

section

variable {N : Type} [AddCommMonoid N] {f g : Peer → N}

/-- A sum over other entries that come from the old ones by one more peer. -/
theorem total_of_perm {view' : PerISPPeerDistribution Peer} {pid' : Int}
    (h : view'.peerToPid.toList.Perm ((p, pid') :: view.peerToPid.toList)) (pid : Int)
    (f : Peer → N) :
    view'.total pid f = (if pid' = pid then f p else 0) + view.total pid f := by
  have hperm : (view'.inPid pid).Perm
      (((p, pid') :: view.peerToPid.toList).filter (·.2 = pid) |>.map (·.1)) :=
    (h.filter _).map _
  unfold total
  rw [(hperm.map f).sum_eq]
  by_cases hpid : pid' = pid
  · simp [hpid, inPid]
  · simp [hpid, inPid]

theorem total_congr (h : ∀ q : Peer, view.peerToPid[q]? = some pid → f q = g q) :
    view.total pid f = view.total pid g := by
  unfold total
  rw [List.map_congr_left fun q hq => h q (mem_inPid.1 hq)]

theorem total_of_isEmpty (h : view.peerToPid.isEmpty) (pid : Int) (f : Peer → N) :
    view.total pid f = 0 := by
  have hnil : view.peerToPid.toList = [] := by
    rw [← List.isEmpty_iff, Std.ExtTreeMap.isEmpty_toList, h]
  simp [total, inPid, hnil]

end

/-- A sum after one of the peers has changed its statistic. -/
theorem total_update {N : Type} [AddCommGroup N] {f g : Peer → N}
    (hp : view.peerToPid[p]? = some pid) (hother : ∀ q, q ≠ p → g q = f q) :
    view.total pid g = view.total pid f + (g p - f p) := by
  have hperm := StdMap.toList_erase_perm hp
  have hrest := @total_of_perm _ _ { view with peerToPid := view.peerToPid.erase p } p N _ view pid
    hperm pid
  have hsame : total { view with peerToPid := view.peerToPid.erase p } pid g =
      total { view with peerToPid := view.peerToPid.erase p } pid f := by
    refine total_congr fun q hq => hother q ?_
    rintro rfl
    rw [StdMap.get_erase, if_pos rfl] at hq
    cases hq
  rw [hrest g, hrest f, hsame, if_pos rfl, if_pos rfl]
  abel

/-! ### The counters that the code keeps -/

/-- What the entry of a PID holds if all its peers are plain. -/
def entryOf (view : PerISPPeerDistribution Peer) (r : Peer → PeerStats) (pid : Int) : PIDState where
  numLeechers := view.total pid fun _ => 1
  uploadCap := view.total pid fun p => (r p).uploadCap
  downloadCap := view.total pid fun p => (r p).downloadCap

theorem entryOf_of_isEmpty (h : view.peerToPid.isEmpty) (pid : Int) : view.entryOf r pid = {} := by
  simp only [entryOf, total_of_isEmpty h]

/-- The entries with one more peer. -/
theorem entryOf_of_perm {view' : PerISPPeerDistribution Peer} {pid' : Int}
    (h : view'.peerToPid.toList.Perm ((p, pid') :: view.peerToPid.toList)) (pid : Int) :
    view'.entryOf r pid =
      if pid' = pid then
        { view.entryOf r pid with
          numLeechers := (view.entryOf r pid).numLeechers + 1
          uploadCap := (view.entryOf r pid).uploadCap + (r p).uploadCap
          downloadCap := (view.entryOf r pid).downloadCap + (r p).downloadCap }
      else view.entryOf r pid := by
  by_cases hpid : pid' = pid
  · simp only [entryOf, total_of_perm h, if_pos hpid, PIDState.mk.injEq, and_true, true_and]
    exact ⟨add_comm _ _, add_comm _ _, add_comm _ _⟩
  · simp only [entryOf, total_of_perm h, if_neg hpid, zero_add]

/-- The peers in PIDs are plain, and the entries are right for them. -/
structure Counted (view : PerISPPeerDistribution Peer) (r : Peer → PeerStats) : Prop where
  buckets : view.Buckets
  size : view.peerToPid.isEmpty ∨ view.pidPeers.length = view.swarmState.pids.length + 1
  plain : ∀ p : Peer, view.Known p → (r p).Plain
  entry : ∀ (i : Nat) (st : PIDState), view.swarmState.pids[i]? = some st → st = view.entryOf r i

theorem counted_empty : Counted ({} : PerISPPeerDistribution Peer) r where
  buckets := buckets_empty
  size := .inl Std.ExtTreeMap.isEmpty_empty
  plain p h := by
    obtain ⟨pid, hpid, -⟩ := h
    simp at hpid
  entry _ _ h := by simp at h

/-- The entries are exact for plain peers. -/
theorem Counted.exact (h : Counted view r) {i : Nat} (hi : i < view.swarmState.getNumPIDs) :
    view.Exact r i := by
  have hvalid : view.swarmState.isValid i = true := by
    simpa [SwarmState.isValid, SwarmState.getNumPIDs] using hi
  have hentry : view.swarmState.pids.getD (i : Int).toNat {} = view.entryOf r i := by
    refine h.entry i _ ?_
    rw [Int.toNat_natCast, List.getD_eq_getElem?_getD, List.getElem?_eq_getElem hi]
    rfl
  have hplain : ∀ p : Peer, view.peerToPid[p]? = some (i : Int) → (r p).Plain :=
    fun p hp => h.plain p ⟨i, hp, Int.natCast_nonneg i⟩
  have hzero : ∀ {N : Type} [AddCommMonoid N] (f : Peer → N),
      (∀ p : Peer, view.peerToPid[p]? = some (i : Int) → f p = 0) → view.total (i : Int) f = 0 := by
    intro N _ f hf
    rw [total_congr hf]
    simp [total]
  constructor
  · rw [SwarmState.getNumSeeds, SwarmState.getField, if_pos hvalid, hentry]
    refine (hzero _ fun p hp => ?_).symm
    rw [(hplain p hp).isSeed]
    rfl
  · rw [SwarmState.getNumLeechers, SwarmState.getField, if_pos hvalid, hentry]
    refine total_congr fun p hp => ?_
    rw [(hplain p hp).isSeed]
    rfl
  · rw [SwarmState.getUploadCapacity, SwarmState.getField, if_pos hvalid, hentry]
    rfl
  · rw [SwarmState.getDownloadCapacity, SwarmState.getField, if_pos hvalid, hentry]
    rfl
  · rw [SwarmState.getUploadRate, SwarmState.getField, if_pos hvalid, hentry]
    exact (hzero _ fun p hp => (hplain p hp).uploadRate).symm
  · rw [SwarmState.getDownloadRate, SwarmState.getField, if_pos hvalid, hentry]
    exact total_congr fun p hp => (hplain p hp).downloadRate.symm
  · rw [SwarmState.getNumActivePeers, SwarmState.getField, if_pos hvalid, hentry]
    exact (hzero _ fun p hp => (hplain p hp).numActivePeers).symm

/-! ### The operations -/

theorem entryOf_congr (h : ∀ q : Peer, q ∈ view.peerToPid → r' q = r q) (pid : Int) :
    view.entryOf r' pid = view.entryOf r pid := by
  have hq : ∀ q : Peer, view.peerToPid[q]? = some pid → r' q = r q :=
    fun q hq => h q (StdMap.mem_iff_get.2 ⟨pid, hq⟩)
  unfold entryOf
  congr 1
  · exact total_congr fun q hget => by rw [hq q hget]
  · exact total_congr fun q hget => by rw [hq q hget]

/-- Only the reports of the stored peers matter. -/
theorem Counted.congr (h : Counted view r) (hr : ∀ q : Peer, q ∈ view.peerToPid → r' q = r q) :
    Counted view r' where
  buckets := h.buckets
  size := h.size
  plain p hp := by
    obtain ⟨pid, hpid, -⟩ := id hp
    rw [hr p (StdMap.mem_iff_get.2 ⟨pid, hpid⟩)]
    exact h.plain p hp
  entry i st hst := by
    rw [entryOf_congr hr]
    exact h.entry i st hst

/-- The statistics of a new peer, under a PID of the view. -/
theorem pids_addStats {s : SwarmState} (stats : PeerStats) (hseed : stats.isSeed = false)
    (hup : stats.uploadRate = 0) (hdown : stats.downloadRate = 0) (hactive : stats.numActivePeers = 0)
    (hpos : 0 ≤ pid) (hlt : pid.toNat < s.pids.length) :
    (addStats s pid stats).pids = s.pids.modify pid.toNat fun p =>
      { p with
        numLeechers := p.numLeechers + 1
        uploadCap := p.uploadCap + stats.uploadCap
        downloadCap := p.downloadCap + stats.downloadCap } := by
  have hvalid : s.isValid pid = true := by
    simp [SwarmState.isValid, hpos, hlt]
  simp only [addStats, hseed, SwarmState.update, if_pos hvalid, hup, hdown, hactive]
  simp

/-- A peer leaves that has no PID, or that is the last one. -/
theorem Counted.removePeer (h : Counted view r)
    (hp : view.Known p → ∀ q : Peer, q ∈ view.peerToPid → q = p) :
    Counted (view.removePeer p).2 r := by
  have hbuckets := h.buckets.removePeer p
  unfold PerISPPeerDistribution.removePeer at hbuckets ⊢
  cases hget : view.peerToPid[p]? with
  | none => exact h
  | some pid =>
    simp only [hget] at hbuckets ⊢
    split
    · exact counted_empty
    next hne =>
    rw [if_neg hne] at hbuckets
    have hneg : ¬ 0 ≤ pid := by
      intro hpos
      obtain ⟨q, pid', hq⟩ := StdMap.exists_get hne
      rw [StdMap.get_erase] at hq
      split at hq
      · cases hq
      · next hqp => exact hqp (hp ⟨pid, hget, hpos⟩ q (StdMap.mem_iff_get.2 ⟨pid', hq⟩)).symm
    refine ⟨hbuckets, ?_, fun q hq => h.plain q ?_, fun i st hst => ?_⟩
    · refine .inr ((List.length_modify ..).trans (h.size.resolve_left ?_))
      exact StdMap.not_isEmpty_of_mem (StdMap.mem_iff_get.2 ⟨pid, hget⟩)
    · obtain ⟨pid', hpid', hpos⟩ := hq
      rw [StdMap.get_erase] at hpid'
      split at hpid'
      · cases hpid'
      · exact ⟨pid', hpid', hpos⟩
    · have hperm := StdMap.toList_erase_perm hget
      have hentry := @entryOf_of_perm _ _
        { view with
          peerToPid := view.peerToPid.erase p
          pidPeers := view.pidPeers.modify (view.slot pid) (·.erase ptrLess p) } r p view pid hperm i
      rw [if_neg (by omega : pid ≠ (i : Int))] at hentry
      rw [← hentry]
      exact h.entry i st hst

/-- The entries after a peer has reported new statistics. -/
theorem entryOf_report (hget : view.peerToPid[p]? = some pid) (hr : ∀ q, q ≠ p → r' q = r q)
    (pid' : Int) :
    view.entryOf r' pid' =
      if pid = pid' then
        { view.entryOf r pid' with
          uploadCap := (view.entryOf r pid').uploadCap + ((r' p).uploadCap - (r p).uploadCap)
          downloadCap :=
            (view.entryOf r pid').downloadCap + ((r' p).downloadCap - (r p).downloadCap) }
      else view.entryOf r pid' := by
  by_cases hpid : pid = pid'
  · subst hpid
    rw [if_pos rfl]
    unfold entryOf
    congr 1
    · exact total_update hget fun q hq => by rw [hr q hq]
    · exact total_update hget fun q hq => by rw [hr q hq]
  · rw [if_neg hpid]
    have hother : ∀ q : Peer, view.peerToPid[q]? = some pid' → r' q = r q := by
      intro q hq
      refine hr q ?_
      rintro rfl
      exact hpid (Option.some.inj (hget.symm.trans hq))
    unfold entryOf
    congr 1
    · exact total_congr fun q hq => by rw [hother q hq]
    · exact total_congr fun q hq => by rw [hother q hq]

theorem length_update (s : SwarmState) (pid : Int) (seeds leechers : Int)
    (uploadCap downloadCap uploadRate downloadRate : Rat) (active : Int) :
    (s.update pid seeds leechers uploadCap downloadCap uploadRate downloadRate active).pids.length =
      s.pids.length := by
  unfold SwarmState.update
  split
  · exact List.length_modify ..
  · rfl

/-- A peer reports new statistics. -/
theorem Counted.updatePeerStats (h : Counted view r) (hr : ∀ q, q ≠ p → r' q = r q)
    (hplain : view.Known p → (r' p).Plain) :
    Counted (view.updatePeerStats p
      (PeerDistributionManager.statsChange (r p).remembered (r' p).remembered)).2 r' := by
  have hbuckets := h.buckets.updatePeerStats p
    (PeerDistributionManager.statsChange (r p).remembered (r' p).remembered)
  unfold PerISPPeerDistribution.updatePeerStats at hbuckets ⊢
  cases hget : view.peerToPid[p]? with
  | none =>
    refine h.congr fun q hq => hr q ?_
    rintro rfl
    obtain ⟨pid, hpid⟩ := StdMap.mem_iff_get.1 hq
    cases hget.symm.trans hpid
  | some pid =>
    simp only [hget] at hbuckets ⊢
    refine ⟨hbuckets, ?_, fun q hq => ?_, fun i st hst => ?_⟩
    · simp only [length_update]
      exact h.size
    · by_cases hqp : q = p
      · subst hqp
        exact hplain hq
      · rw [hr q hqp]
        exact h.plain q hq
    · refine Eq.trans ?_ (entryOf_report hget hr i).symm
      by_cases hpos : 0 ≤ pid
      · have hlt := h.buckets.known_lt p pid hget hpos
        have hsize := h.size.resolve_left
          (StdMap.not_isEmpty_of_mem (StdMap.mem_iff_get.2 ⟨pid, hget⟩))
        have hvalid : view.swarmState.isValid pid = true := by
          simp only [SwarmState.isValid, decide_eq_true_eq]
          omega
        have hold := h.plain p ⟨pid, hget, hpos⟩
        have hnew := hplain ⟨pid, hget, hpos⟩
        have hflip : (PeerDistributionManager.statsChange (r p).remembered
            (r' p).remembered).isSeedChanged = false := by
          simp [PeerDistributionManager.statsChange, PeerStats.remembered, hold.isSeed, hnew.isSeed]
        simp only [SwarmState.update, if_pos hvalid, hflip, List.getElem?_modify] at hst
        obtain ⟨st', hst', rfl⟩ := Option.map_eq_some_iff.1 hst
        rw [h.entry i st' hst']
        by_cases hi : pid.toNat = i
        · have hi' : pid = (i : Int) := by omega
          rw [if_pos hi, if_pos hi']
          simp [PeerDistributionManager.statsChange, PeerStats.remembered]
        · rw [if_neg hi, if_neg (by omega : pid ≠ (i : Int))]
      · have hvalid : ¬ view.swarmState.isValid pid = true := by
          simp [SwarmState.isValid, hpos]
        simp only [SwarmState.update, if_neg hvalid] at hst
        rw [if_neg (by omega : pid ≠ (i : Int))]
        exact h.entry i st hst

theorem length_addStats (s : SwarmState) (pid : Int) (stats : PeerStats) :
    (addStats s pid stats).pids.length = s.pids.length := by
  unfold addStats
  split <;> exact length_update ..

variable [Inhabited Peer]

theorem Counted.allocate (h : Counted view r) (n : Nat) : Counted (view.allocate n) r := by
  by_cases hempty : view.peerToPid.isEmpty
  · have heq : view.allocate n =
        { view with
          swarmState := SwarmState.ofNumPIDs n
          pidPeers := List.replicate (n + 1) default } := if_pos hempty
    refine ⟨h.buckets.allocate n, .inl ?_, fun p hp => h.plain p ?_, fun i st hst => ?_⟩
    · rwa [peerToPid_allocate]
    · unfold Known at hp
      rwa [peerToPid_allocate] at hp
    · rw [heq] at hst ⊢
      simp only [SwarmState.ofNumPIDs, List.getElem?_replicate] at hst
      split at hst
      · cases hst
        exact (entryOf_of_isEmpty hempty i).symm
      · cases hst
  · rwa [PerISPPeerDistribution.allocate, if_neg hempty]

/-- After the allocation there is an entry for every PID. -/
theorem Counted.size_allocate (h : Counted view r) (n : Nat) :
    (view.allocate n).pidPeers.length = (view.allocate n).swarmState.pids.length + 1 := by
  unfold PerISPPeerDistribution.allocate
  split
  · simp [SwarmState.ofNumPIDs]
  · next hne => exact h.size.resolve_left hne

/-- A new peer whose remembered statistics are counted. -/
theorem Counted.addPeerInternal (h : Counted view r) (hp : p ∉ view.peerToPid)
    (hr : ∀ q, q ≠ p → r' q = r q)
    (hplain : 0 ≤ (view.allocate n).storedPid pid → (r' p).Plain) :
    Counted (view.addPeerInternal n p pid (r' p).remembered).2 r' := by
  have halloc := h.allocate n
  have hsize := h.size_allocate n
  have hp' : p ∉ (view.allocate n).peerToPid := by rwa [peerToPid_allocate]
  have hold : ∀ q : Peer, q ∈ (view.allocate n).peerToPid → r' q = r q := by
    intro q hq
    refine hr q ?_
    rintro rfl
    exact hp' hq
  have hcongr := halloc.congr hold
  have hbuckets := h.buckets.addPeerInternal n p pid (r' p).remembered
  unfold PerISPPeerDistribution.addPeerInternal at hbuckets ⊢
  simp only [if_neg hp'] at hbuckets ⊢
  generalize view.allocate n = v at *
  have hperm := @StdMap.toList_insert_perm _ _ _ _ _ (v.storedPid pid) hp'
  refine ⟨hbuckets, .inr ?_, fun q hq => ?_, fun i st hst => ?_⟩
  · simp only [List.length_modify, hsize]
    split
    · rw [length_addStats]
    · rfl
  · obtain ⟨pid', hpid', hpos⟩ := hq
    rw [StdMap.get_insert] at hpid'
    split at hpid'
    · next heq =>
      cases hpid'
      rw [← heq]
      exact hplain hpos
    · exact hcongr.plain q ⟨pid', hpid', hpos⟩
  · rw [entryOf_of_perm hperm]
    by_cases hpos : 0 ≤ v.storedPid pid
    · have hknown := storedPid_known hpos
      have hlt : (v.storedPid pid).toNat < v.swarmState.pids.length := by
        rw [hknown.1]
        omega
      have hmine := hplain hpos
      simp only [if_pos hpos, pids_addStats (r' p).remembered hmine.isSeed rfl rfl rfl hpos
        hlt, List.getElem?_modify] at hst
      obtain ⟨st', hst', rfl⟩ := Option.map_eq_some_iff.1 hst
      rw [hcongr.entry i st' hst']
      by_cases hi : (v.storedPid pid).toNat = i
      · have hi' : v.storedPid pid = (i : Int) := by omega
        rw [if_pos hi, if_pos hi']
        rfl
      · have hi' : v.storedPid pid ≠ (i : Int) := by omega
        rw [if_neg hi, if_neg hi']
    · have hi' : v.storedPid pid ≠ (i : Int) := by omega
      simp only [if_neg hpos] at hst
      rw [if_neg hi']
      exact hcongr.entry i st hst

/-- A rebuild from peers with remembered statistics. -/
theorem Counted.addAll (h : Counted view r) (pidOf : Peer → Int) (l : List (Peer × PeerStats))
    (hlength : view.peerToPid.isEmpty ∨ view.pidPeers.length = n + 1)
    (hnodup : (l.map (·.1)).Nodup) (hnew : ∀ x ∈ l, x.1 ∉ view.peerToPid)
    (hstats : ∀ x ∈ l, x.2 = (r x.1).remembered)
    (hplain : ∀ x ∈ l, 0 ≤ pidOf x.1 → (pidOf x.1).toNat < n → (r x.1).Plain) :
    Counted (view.addAll n pidOf l) r := by
  induction l generalizing view with
  | nil => exact h
  | cons x l ih =>
    have hlength' : (view.allocate n).pidPeers.length = n + 1 := by
      unfold PerISPPeerDistribution.allocate
      split
      · exact List.length_replicate
      · next hne => exact hlength.resolve_left hne
    have hx := h.addPeerInternal (n := n) (hnew x List.mem_cons_self) (fun _ _ => rfl)
      (fun hpos => by
        obtain ⟨heq, hlt⟩ := storedPid_known hpos
        rw [heq] at hpos
        exact hplain x List.mem_cons_self hpos (by omega))
    rw [← hstats x List.mem_cons_self] at hx
    refine ih hx (.inr ?_) (List.nodup_cons.1 hnodup).2 (fun y hy => ?_)
      (fun y hy => hstats y (List.mem_cons_of_mem _ hy))
      (fun y hy => hplain y (List.mem_cons_of_mem _ hy))
    · rw [length_addPeerInternal, hlength']
    · rw [mem_addPeerInternal]
      rintro (heq | hmem)
      · exact (List.nodup_cons.1 hnodup).1 (List.mem_map.2 ⟨y, hy, heq⟩)
      · exact hnew y (List.mem_cons_of_mem _ hy) hmem

end PerISPPeerDistribution

/-! ## Runs of the manager -/

variable [LinearOrder ISP] [Inhabited Peer]

/-- A manager, and what its peers have last reported. -/
structure ReportState (Peer ISP Mgr : Type) [LinearOrder Peer] [LinearOrder ISP]
    extends ManagerState Peer ISP Mgr where
  reports : Peer → PeerStats

namespace ReportState

/-- A peer reports when it joins, and when its statistics are updated. -/
def report (s : ReportState Peer ISP Mgr) : ManagerStep Peer ISP → Peer → PeerStats
  | .addPeer peer _ =>
    if peer ∈ s.manager.peers then s.reports
    else Function.update s.reports peer (.reported (s.objects.peer peer))
  | .updatePeerStats peer =>
    if peer ∈ s.manager.peers then
      Function.update s.reports peer (.reported (s.objects.peer peer))
    else s.reports
  | _ => s.reports

def step (s : ReportState Peer ISP Mgr) (l : ManagerStep Peer ISP) :
    Option (ReportState Peer ISP Mgr) :=
  (s.toManagerState.step l).map fun s' => ⟨s', s.report l⟩

/-- The counters of all PIDs of all views are exact. -/
def Exact (s : ReportState Peer ISP Mgr) : Prop :=
  ∀ (isp : ISP) (view : PerISPPeerDistribution Peer), s.manager.views[isp]? = some view →
    ∀ i : Nat, i < view.swarmState.getNumPIDs → view.Exact s.reports i

/-- A peer that comes into a PID, or is in one, has plain statistics, and it does not leave before the
others. -/
def Plain (s : ReportState Peer ISP Mgr) : ManagerStep Peer ISP → Prop
  | .addPeer peer behind => peer ∈ s.manager.peers ∨
    ∀ (isp : ISP) (view : PerISPPeerDistribution Peer), s.manager.views[isp]? = some view →
      0 ≤ (view.allocate (s.objects.pidMap isp).numTotalPIDs).storedPid
        (lookupPid (behind isp) isp s.objects peer) →
          (PeerStats.reported (s.objects.peer peer)).Plain
  | .removePeer peer =>
    ∀ (isp : ISP) (view : PerISPPeerDistribution Peer), s.manager.views[isp]? = some view →
      view.Known peer → ∀ q : Peer, q ∈ view.peerToPid → q = peer
  | .updatePeerStats peer => peer ∈ s.manager.peers →
    ∀ (isp : ISP) (view : PerISPPeerDistribution Peer), s.manager.views[isp]? = some view →
      view.Known peer → (PeerStats.reported (s.objects.peer peer)).Plain
  | .updatePeerDistribution isp behind => isp ∈ s.manager.views → ∀ peer ∈ s.manager.peers,
    0 ≤ lookupPids behind isp s.objects peer →
      (lookupPids behind isp s.objects peer).toNat < (s.objects.pidMap isp).numTotalPIDs →
        (s.reports peer).Plain
  | _ => True

/-- Every view counts its peers, which have joined, and the manager remembers their reports. -/
structure Counted (s : ReportState Peer ISP Mgr) : Prop where
  joined : ∀ (isp : ISP) (view : PerISPPeerDistribution Peer), s.manager.views[isp]? = some view →
    ∀ p : Peer, p ∈ view.peerToPid → p ∈ s.manager.peers
  counted : ∀ (isp : ISP) (view : PerISPPeerDistribution Peer), s.manager.views[isp]? = some view →
    view.Counted s.reports
  remembered : ∀ (p : Peer) (stats : PeerStats), s.manager.peers[p]? = some stats →
    stats = (s.reports p).remembered

variable {s s' : ReportState Peer ISP Mgr}

omit [Inhabited Peer] in
theorem Counted.exact (h : s.Counted) : s.Exact :=
  fun isp view hview _ hi => (h.counted isp view hview).exact hi

theorem Counted.addPeer (h : s.Counted) {peer : Peer} {behind : ISP → Behind}
    (hok : s.Plain (.addPeer peer behind)) (hstep : s.step (.addPeer peer behind) = some s') :
    s'.Counted := by
  obtain rfl := Option.some.inj hstep
  by_cases hp : peer ∈ s.manager.peers
  · simp only [report, if_pos hp, PeerDistributionManager.addPeer]
    exact ⟨h.joined, h.counted, h.remembered⟩
  have hspec := PeerDistributionManager.addPeer_spec behind s.objects hp
  have hother : ∀ q, q ≠ peer → s.report (.addPeer peer behind) q = s.reports q := by
    intro q hq
    simp only [report, if_neg hp, Function.update_of_ne hq]
  have hself : s.report (.addPeer peer behind) peer = .reported (s.objects.peer peer) := by
    simp only [report, if_neg hp, Function.update_self]
  refine ⟨fun isp view hview q hq => ?_, fun isp view hview => ?_, fun q stats hq => ?_⟩
  · rw [hspec.views] at hview
    obtain ⟨view', hview', rfl⟩ := Option.map_eq_some_iff.1 hview
    rw [hspec.peers, Std.ExtTreeMap.mem_insert, compare_eq_iff_eq]
    rw [PerISPPeerDistribution.addPeer, PerISPPeerDistribution.mem_addPeerInternal] at hq
    exact hq.imp Eq.symm (h.joined isp view' hview' q)
  · rw [hspec.views] at hview
    obtain ⟨view', hview', rfl⟩ := Option.map_eq_some_iff.1 hview
    have hnew : peer ∉ view'.peerToPid := fun hmem => hp (h.joined isp view' hview' peer hmem)
    have hadd := (h.counted isp view' hview').addPeerInternal hnew hother
      (fun hpos => hself ▸ (hok.resolve_left hp) isp view' hview' hpos)
    rwa [hself] at hadd
  · rw [hspec.peers, StdMap.get_insert] at hq
    split at hq
    · next heq =>
      cases hq
      rw [← heq]
      exact congrArg PeerStats.remembered hself.symm
    · next hne =>
      rw [h.remembered q stats hq]
      exact congrArg PeerStats.remembered (hother q (Ne.symm hne)).symm

theorem Counted.removePeer (h : s.Counted) {peer : Peer} (hok : s.Plain (.removePeer peer))
    (hstep : s.step (.removePeer peer) = some s') : s'.Counted := by
  obtain rfl := Option.some.inj hstep
  refine ⟨fun isp view hview q hq => ?_, fun isp view hview => ?_, fun q stats hq => ?_⟩
  · rw [PeerDistributionManager.removePeer, Std.ExtTreeMap.getElem?_map] at hview
    obtain ⟨view', hview', rfl⟩ := Option.map_eq_some_iff.1 hview
    obtain ⟨pid, hpid⟩ := StdMap.mem_iff_get.1 hq
    rw [PerISPPeerDistribution.get_removePeer] at hpid
    split at hpid
    · cases hpid
    · next hne =>
      refine StdMap.mem_iff_get.2 ?_
      simp only [PeerDistributionManager.removePeer, StdMap.get_erase, if_neg hne]
      exact StdMap.mem_iff_get.1 (h.joined isp view' hview' q (StdMap.mem_iff_get.2 ⟨pid, hpid⟩))
  · rw [PeerDistributionManager.removePeer, Std.ExtTreeMap.getElem?_map] at hview
    obtain ⟨view', hview', rfl⟩ := Option.map_eq_some_iff.1 hview
    exact (h.counted isp view' hview').removePeer (hok isp view' hview')
  · rw [PeerDistributionManager.removePeer, StdMap.get_erase] at hq
    split at hq
    · cases hq
    · exact h.remembered q stats hq

theorem Counted.updatePeerStats (h : s.Counted) {peer : Peer}
    (hok : s.Plain (.updatePeerStats peer))
    (hstep : s.step (.updatePeerStats peer) = some s') : s'.Counted := by
  obtain rfl := Option.some.inj hstep
  cases hget : s.manager.peers[peer]? with
  | none =>
    have hp : peer ∉ s.manager.peers := by
      intro hmem
      obtain ⟨stats, hstats⟩ := StdMap.mem_iff_get.1 hmem
      cases hget.symm.trans hstats
    simp only [report, if_neg hp, PeerDistributionManager.updatePeerStats, hget]
    exact ⟨h.joined, h.counted, h.remembered⟩
  | some prev =>
    have hp : peer ∈ s.manager.peers := StdMap.mem_iff_get.2 ⟨prev, hget⟩
    have hother : ∀ q, q ≠ peer → s.report (.updatePeerStats peer) q = s.reports q := by
      intro q hq
      simp only [report, if_pos hp, Function.update_of_ne hq]
    have hself : s.report (.updatePeerStats peer) peer = .reported (s.objects.peer peer) := by
      simp only [report, if_pos hp, Function.update_self]
    have hprev := h.remembered peer prev hget
    simp only [PeerDistributionManager.updatePeerStats, hget]
    refine ⟨fun isp view hview q hq => ?_, fun isp view hview => ?_, fun q stats hq => ?_⟩
    · rw [Std.ExtTreeMap.getElem?_map] at hview
      obtain ⟨view', hview', rfl⟩ := Option.map_eq_some_iff.1 hview
      rw [PerISPPeerDistribution.peerToPid_updatePeerStats] at hq
      rw [Std.ExtTreeMap.mem_insert]
      exact .inr (h.joined isp view' hview' q hq)
    · rw [Std.ExtTreeMap.getElem?_map] at hview
      obtain ⟨view', hview', rfl⟩ := Option.map_eq_some_iff.1 hview
      have hupdate := (h.counted isp view' hview').updatePeerStats hother
        (fun hknown => hself ▸ hok hp isp view' hview' hknown)
      rw [hself, ← hprev] at hupdate
      exact hupdate
    · rw [StdMap.get_insert] at hq
      split at hq
      · next heq =>
        cases hq
        rw [← heq]
        exact congrArg PeerStats.remembered hself.symm
      · next hne =>
        rw [h.remembered q stats hq]
        exact congrArg PeerStats.remembered (hother q (Ne.symm hne)).symm

theorem Counted.updatePeerDistribution (h : s.Counted) {isp : ISP} {behind : Peer → Behind}
    (hok : s.Plain (.updatePeerDistribution isp behind))
    (hstep : s.step (.updatePeerDistribution isp behind) = some s') : s'.Counted := by
  obtain rfl := Option.some.inj hstep
  unfold PeerDistributionManager.updatePeerDistribution
  split
  · next hmem =>
    rw [addPeersFromManager_eq]
    refine ⟨fun isp' view hview q hq => ?_, fun isp' view hview => ?_, h.remembered⟩
    · rw [StdMap.get_insert] at hview
      split at hview
      · cases hview
        rw [PerISPPeerDistribution.mem_addAll, Std.ExtTreeMap.map_fst_toList_eq_keys,
          Std.ExtTreeMap.mem_keys] at hq
        exact hq.resolve_right Std.ExtTreeMap.not_mem_empty
      · exact h.joined isp' view hview q hq
    · rw [StdMap.get_insert] at hview
      split at hview
      · cases hview
        refine PerISPPeerDistribution.counted_empty.addAll _ _ (.inl Std.ExtTreeMap.isEmpty_empty) ?_
          (fun _ _ => Std.ExtTreeMap.not_mem_empty) (fun x hx => ?_) (fun x hx => ?_)
        · rw [Std.ExtTreeMap.map_fst_toList_eq_keys]
          exact Std.ExtTreeMap.nodup_keys
        · exact h.remembered x.1 x.2 (StdMap.mem_toList.1 hx)
        · exact hok hmem x.1 (StdMap.mem_iff_get.2 ⟨x.2, StdMap.mem_toList.1 hx⟩)
      · exact h.counted isp' view hview
  · exact ⟨h.joined, h.counted, h.remembered⟩

theorem Counted.step {l : ManagerStep Peer ISP} (h : s.Counted) (hok : s.Plain l)
    (hstep : s.step l = some s') : s'.Counted := by
  cases l with
  | addISP isp =>
    obtain rfl := Option.some.inj hstep
    unfold PeerDistributionManager.addISP
    split
    · exact ⟨h.joined, h.counted, h.remembered⟩
    refine ⟨fun isp' view hview q hq => ?_, fun isp' view hview => ?_, h.remembered⟩
    · rw [StdMap.get_insert] at hview
      split at hview
      · cases hview
        exact absurd hq Std.ExtTreeMap.not_mem_empty
      · exact h.joined isp' view hview q hq
    · rw [StdMap.get_insert] at hview
      split at hview
      · cases hview
        exact PerISPPeerDistribution.counted_empty
      · exact h.counted isp' view hview
  | removeISP isp =>
    obtain rfl := Option.some.inj hstep
    have hview : ∀ (isp' : ISP) (view : PerISPPeerDistribution Peer),
        (s.manager.removeISP isp).views[isp']? = some view → s.manager.views[isp']? = some view := by
      intro isp' view hview
      rw [PeerDistributionManager.removeISP, StdMap.get_erase] at hview
      split at hview
      · cases hview
      · exact hview
    exact ⟨fun isp' view hv => h.joined isp' view (hview isp' view hv),
      fun isp' view hv => h.counted isp' view (hview isp' view hv), h.remembered⟩
  | addPeer peer behind => exact h.addPeer hok hstep
  | removePeer peer => exact h.removePeer hok hstep
  | updatePeerStats peer => exact h.updatePeerStats hok hstep
  | updatePeerDistribution isp behind => exact h.updatePeerDistribution hok hstep
  | setPIDMap isp map =>
    obtain rfl := Option.some.inj hstep
    exact ⟨h.joined, h.counted, h.remembered⟩
  | setPeer peer object =>
    obtain rfl := Option.some.inj hstep
    exact ⟨h.joined, h.counted, h.remembered⟩

/-- The counters are exact in every run in which all peers in PIDs are plain leechers that stay. -/
theorem swarm_stats_exact (o : Objects Peer ISP Mgr) (reports : Peer → PeerStats)
    {ls : List (ManagerStep Peer ISP)} (hr : Run step Plain ⟨⟨o, {}⟩, reports⟩ ls s') : s'.Exact := by
  have hstart : Counted (⟨⟨o, {}⟩, reports⟩ : ReportState Peer ISP Mgr) :=
    ⟨fun _ _ h => by simp at h, fun _ _ h => by simp at h, fun _ _ h => by simp at h⟩
  have hend := hr.invariant hstart fun _ _ _ h hok hstep => h.step hok hstep
  exact hend.exact

/-- A leecher that downloads at its capacity. -/
def leecherAt (rate : Rat) : P4PPeerBase Nat :=
  { bareObjects.peer 7 with
    uploadCapacity := 3, downloadCapacity := rate, currentDownloadRate := rate }

/-- A leecher joins, and then it downloads faster. -/
theorem swarm_stats_exact_leecher :
    ∃ s', Run step Plain ⟨⟨tenAt 0, {}⟩, fun _ => {}⟩
      [.addISP 0, .setPeer 7 (leecherAt 5), .addPeer 7 fun _ _ _ => false, .setPeer 7 (leecherAt 8),
        .updatePeerStats 7] s' ∧ s'.Exact := by
  have hr : Run step Plain ⟨⟨tenAt 0, {}⟩, fun _ => {}⟩
      [.addISP 0, .setPeer 7 (leecherAt 5), .addPeer 7 fun _ _ _ => false, .setPeer 7 (leecherAt 8),
        .updatePeerStats 7] _ :=
    .cons trivial rfl (.cons trivial rfl
      (.cons (.inr fun _ _ _ _ => ⟨rfl, rfl, rfl, rfl⟩) rfl (.cons trivial rfl
        (.cons (fun _ _ _ _ _ => ⟨rfl, rfl, rfl, rfl⟩) rfl (.nil _)))))
  exact ⟨_, hr, swarm_stats_exact _ _ hr⟩

/-- A seed joins: it is added to the upload capacity, not to the seeds. -/
theorem not_swarm_stats_exact_seed :
    ∃ s', Run step (fun _ _ => True) ⟨⟨tenAt 0, {}⟩, fun _ => {}⟩
      [.addISP 0, .setPeer 7 { bareObjects.peer 7 with isSeeder := true },
        .addPeer 7 fun _ _ _ => false] s' ∧
      ¬ s'.Exact := by
  refine ⟨_, .cons trivial rfl (.cons trivial rfl (.cons trivial rfl (.nil _))), fun h => ?_⟩
  have hseeds := (h 0 _ (StdMap.get_insert.trans (if_pos rfl)) 0 (by decide)).numSeeds
  exact absurd hseeds (by decide)

end ReportState

end Alto.App
