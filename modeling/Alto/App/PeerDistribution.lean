import Alto.App.SwarmState
import Alto.Common.HeapWithDelete

/-!
# Peers by ISP and PID

`PerISPPeerDistribution` (`common/cpp/src/lib/perisp_peer_distribution.cpp`),
`PeerDistributionManager` (`peer_distribution_manager.cpp`) and `P4PSelectionManager`
(`p4p_selection_manager.cpp`). Peers, ISPs and ISP managers are pointers; `Objects` holds what they
point to. Peers and ISPs are ordered by their addresses, as `std::map` iterates over them.
-/

namespace Alto.App

open Common Lib

/-- `P4PPeerBase`: the home that the library stores in a peer, and what the application's methods
return. -/
structure P4PPeerBase (ISP : Type) where
  ipAddress : IPPrefix
  homeISP : Option ISP := none
  homePID : Int := errUnknownPID
  isSeeder : Bool := false
  uploadCapacity : Rat := 0
  downloadCapacity : Rat := 0
  currentUploadRate : Rat := 0
  currentDownloadRate : Rat := 0
  numActivePeers : Int := 0

/-- `P4PPeerBase::setHome`. -/
def P4PPeerBase.setHome {ISP : Type} (peer : P4PPeerBase ISP) (isp : ISP) (pid : Int) :
    P4PPeerBase ISP :=
  { peer with homeISP := some isp, homePID := pid }

/-- `PeerDistributionManager::PeerStats`. -/
structure PeerStats where
  isSeed : Bool := false
  uploadCap : Rat := 0
  downloadCap : Rat := 0
  uploadRate : Rat := 0
  downloadRate : Rat := 0
  numActivePeers : Int := 0
deriving DecidableEq

/-- `PeerStats(peer->isSeeder(), peer->getUploadCapacity(), peer->getDownloadCapacity())`. -/
def PeerStats.ofPeer {ISP : Type} (peer : P4PPeerBase ISP) : PeerStats where
  isSeed := peer.isSeeder
  uploadCap := peer.uploadCapacity
  downloadCap := peer.downloadCapacity

/-- `std::less` on pointers. -/
def ptrLess {T : Type} [LinearOrder T] (a b : T) : Bool := decide (a < b)

instance lawfulBEq_pointer {T : Type} [LinearOrder T] : LawfulBEq T := inferInstance

instance lawfulBEq_option_pointer {T : Type} [LinearOrder T] : LawfulBEq (Option T) :=
  inferInstance

/-! ## The view of one ISP -/

/-- `PerISPPeerDistribution`. -/
structure PerISPPeerDistribution (Peer : Type) [LinearOrder Peer] where
  peerToPid : StdMap Peer Int := ∅
  pidPeers : List (RandomAccessSet Peer) := []
  swarmState : SwarmState := {}

namespace PerISPPeerDistribution

variable {Peer ISP : Type} [LinearOrder Peer] [Inhabited Peer]

/-- The first part of `PerISPPeerDistribution::addPeerInternal`: the first peer allocates. The last
entry is for peers without any PID. -/
def allocate (numTotalPIDs : Nat) (view : PerISPPeerDistribution Peer) :
    PerISPPeerDistribution Peer :=
  if view.peerToPid.isEmpty then
    { view with
      swarmState := SwarmState.ofNumPIDs numTotalPIDs
      pidPeers := List.replicate (numTotalPIDs + 1) default }
  else view

/-- The PID under which a peer is stored: a PID out of range gets set to the unknown PID. -/
def storedPid (view : PerISPPeerDistribution Peer) (pid : Int) : Int :=
  if 0 ≤ pid ∧ view.pidPeers.length - 1 ≤ pid.toNat then errUnknownPID else pid

/-- The entry of `m_pid_peers` for a PID. -/
def slot (view : PerISPPeerDistribution Peer) (pid : Int) : Nat :=
  if 0 ≤ pid then pid.toNat else view.pidPeers.length - 1

/-- The contribution of a new peer to the statistics of its PID. -/
def addStats (s : SwarmState) (pid : Int) (stats : PeerStats) : SwarmState :=
  if stats.isSeed then
    s.update pid 1 0 stats.uploadCap stats.downloadCap stats.uploadRate stats.downloadRate
      stats.numActivePeers
  else
    s.update pid 0 1 stats.uploadCap stats.downloadCap stats.uploadRate stats.downloadRate
      stats.numActivePeers

/-- `PerISPPeerDistribution::addPeerInternal`. -/
def addPeerInternal (numTotalPIDs : Nat) (view : PerISPPeerDistribution Peer) (peer : Peer)
    (pid : Int) (stats : PeerStats) : Bool × PerISPPeerDistribution Peer :=
  let view := view.allocate numTotalPIDs
  let pid := view.storedPid pid
  if peer ∈ view.peerToPid then (false, view)
  else
    (true,
      { peerToPid := view.peerToPid.insert peer pid
        pidPeers := view.pidPeers.modify (view.slot pid) (·.pushBack ptrLess peer)
        swarmState := if 0 ≤ pid then addStats view.swarmState pid stats else view.swarmState })

/-- `PerISPPeerDistribution::addPeer`. -/
def addPeer (numTotalPIDs : Nat) (view : PerISPPeerDistribution Peer) (peer : Peer)
    (object : P4PPeerBase ISP) (pid : Int) : Bool × PerISPPeerDistribution Peer :=
  view.addPeerInternal numTotalPIDs peer pid (PeerStats.ofPeer object)

/-- `PerISPPeerDistribution::removePeer`. -/
def removePeer (view : PerISPPeerDistribution Peer) (peer : Peer) :
    Bool × PerISPPeerDistribution Peer :=
  match view.peerToPid[peer]? with
  | none => (false, view)
  | some pid =>
    let peerToPid := view.peerToPid.erase peer
    if peerToPid.isEmpty then (true, {})
    else
      (true,
        { view with
          peerToPid
          pidPeers := view.pidPeers.modify (view.slot pid) (·.erase ptrLess peer) })

/-- The changes that `PeerDistributionManager::updatePeerStats` passes to the views. -/
structure StatsChange where
  isSeedChanged : Bool
  uploadCapChange : Rat
  downloadCapChange : Rat
  uploadRateChange : Rat
  downloadRateChange : Rat
  activePeersChange : Int

/-- `PerISPPeerDistribution::updatePeerStats`. -/
def updatePeerStats (view : PerISPPeerDistribution Peer) (peer : Peer) (change : StatsChange) :
    Bool × PerISPPeerDistribution Peer :=
  match view.peerToPid[peer]? with
  | none => (false, view)
  | some pid =>
    let seeds := if change.isSeedChanged then 1 else 0
    let leechers := if change.isSeedChanged then -1 else 0
    (true,
      { view with
        swarmState := view.swarmState.update pid seeds leechers change.uploadCapChange
          change.downloadCapChange change.uploadRateChange change.downloadRateChange
          change.activePeersChange })

/-- The bucket of a PID index, where a negative index stands for the last one. -/
def bucket (view : PerISPPeerDistribution Peer) (pid : Int) : Option (RandomAccessSet Peer) :=
  view.pidPeers[view.slot pid]?

/-- `PerISPPeerDistribution::listPIDPeers`: the peers that are appended to the result. -/
def listPIDPeers (view : PerISPPeerDistribution Peer) (pid : Int) : Option (List Peer) :=
  (view.bucket pid).map (·.elements)

/-- `PerISPPeerDistribution::listIntraISPPeers`. -/
def listIntraISPPeers (map : ISPPIDMap) (view : PerISPPeerDistribution Peer) : List Peer :=
  (List.range map.numIntraISPPIDs).flatMap fun i => (view.listPIDPeers i).getD []

/-- `PerISPPeerDistribution::listExternalPeers`. -/
def listExternalPeers (map : ISPPIDMap) (view : PerISPPeerDistribution Peer) : List Peer :=
  (List.range' map.numIntraISPPIDs (map.numTotalPIDs - map.numIntraISPPIDs)).flatMap fun i =>
    (view.listPIDPeers i).getD []

/-- `PerISPPeerDistribution::getRandomPeer`, with the number that `rand` returns. -/
def getRandomPeer (view : PerISPPeerDistribution Peer) (pid : Int) (rand : Nat) : Option Peer :=
  (view.bucket pid).bind fun peers =>
    if peers.size = 0 then none else some (peers.vec (rand % peers.size))

/-- `PerISPPeerDistribution::getNumPeers`. The source returns an `int`, which is the size of the vector
as long as a PID has fewer than `2 ^ 31` peers. -/
def getNumPeers (view : PerISPPeerDistribution Peer) (pid : Int) : Int :=
  match view.bucket pid with
  | none => -1
  | some peers => peers.size

end PerISPPeerDistribution

/-! ## The manager of the views -/

/-- The objects behind the pointers. An ISP manager maps names to ISPs. -/
structure Objects (Peer ISP Mgr : Type) where
  pidMap : ISP → ISPPIDMap
  peer : Peer → P4PPeerBase ISP
  ispManager : Mgr → StdMap String ISP

/-- Another state of a peer's object. -/
def Objects.setPeer {Peer ISP Mgr : Type} [DecidableEq Peer] (o : Objects Peer ISP Mgr)
    (peer : Peer) (object : P4PPeerBase ISP) : Objects Peer ISP Mgr :=
  { o with peer := Function.update o.peer peer object }

/-- `ISPManager::addISP`. -/
def Objects.addISP {Peer ISP Mgr : Type} [DecidableEq Mgr] (o : Objects Peer ISP Mgr) (mgr : Mgr)
    (name : String) (isp : ISP) : Objects Peer ISP Mgr :=
  { o with
    ispManager := Function.update o.ispManager mgr ((o.ispManager mgr).insertIfNew name isp) }

/-- `ISPManager::removeISP`. -/
def Objects.removeISP {Peer ISP Mgr : Type} [DecidableEq Mgr] (o : Objects Peer ISP Mgr)
    (mgr : Mgr) (name : String) : Objects Peer ISP Mgr :=
  { o with ispManager := Function.update o.ispManager mgr ((o.ispManager mgr).erase name) }

/-- `ERR_INVALID_ISP`. -/
def errInvalidISP : Int := -102

/-- `PeerDistributionManager`. -/
structure PeerDistributionManager (Peer ISP : Type) [LinearOrder Peer] [LinearOrder ISP] where
  views : StdMap ISP (PerISPPeerDistribution Peer) := ∅
  peers : StdMap Peer PeerStats := ∅

section

variable {Peer ISP Mgr : Type} [LinearOrder Peer] [LinearOrder ISP] [Inhabited Peer]

/-- One peer of the loop of `PerISPPeerDistribution::addPeersFromManager`. Every lookup allocates its
key anew, so each peer has its own bytes behind it. -/
def addPeerFromManager (behind : Peer → Behind) (isp : ISP)
    (s : PerISPPeerDistribution Peer × Objects Peer ISP Mgr) (x : Peer × PeerStats) :
    PerISPPeerDistribution Peer × Objects Peer ISP Mgr :=
  let found := ((s.2.pidMap isp).lookup (behind x.1) (s.2.peer x.1).ipAddress).1
  let pid := if found < 0 then errUnknownPID else found
  let view := (s.1.addPeerInternal (s.2.pidMap isp).numTotalPIDs x.1 pid x.2).2
  if (s.2.peer x.1).homeISP = some isp then
    (view, s.2.setPeer x.1 ((s.2.peer x.1).setHome isp pid))
  else (view, s.2)

/-- `PerISPPeerDistribution::addPeersFromManager`, called by `updatePeerDistribution`. -/
def addPeersFromManager (behind : Peer → Behind) (isp : ISP) (peers : StdMap Peer PeerStats)
    (o : Objects Peer ISP Mgr) : PerISPPeerDistribution Peer × Objects Peer ISP Mgr :=
  peers.toList.foldl (addPeerFromManager behind isp) ({}, o)

namespace PeerDistributionManager

/-- The variables of the loop of `PeerDistributionManager::addPeer`. -/
structure AddLoop (Peer ISP : Type) [LinearOrder Peer] [LinearOrder ISP] where
  views : StdMap ISP (PerISPPeerDistribution Peer)
  homeISP : Option ISP := none
  homePID : Int := errUnknownPID
  longestPrefixLength : Nat := 0

/-- The home ISP and PID after a match. An external PID is not a candidate, nor is a match that is
less specific than an earlier one. -/
def AddLoop.candidate (loop : AddLoop Peer ISP) (isp : ISP) (map : ISPPIDMap)
    (found : Int × Option IPPrefix) : AddLoop Peer ISP :=
  let length := (found.2.map IPPrefix.length).getD 0
  if (map.numIntraISPPIDs : Int) ≤ found.1 then loop
  else if length < loop.longestPrefixLength then loop
  else { loop with homeISP := some isp, homePID := found.1, longestPrefixLength := length }

/-- The body of the loop of `PeerDistributionManager::addPeer`, with the bytes behind the key of each
ISP's lookup. -/
def addPeerToView (behind : ISP → Behind) (o : Objects Peer ISP Mgr) (peer : Peer)
    (loop : AddLoop Peer ISP) (x : ISP × PerISPPeerDistribution Peer) : AddLoop Peer ISP :=
  let map := o.pidMap x.1
  let found := map.lookup (behind x.1) (o.peer peer).ipAddress
  let add (pid : Int) : AddLoop Peer ISP :=
    { loop with
      views := loop.views.insert x.1 (x.2.addPeer map.numTotalPIDs peer (o.peer peer) pid).2 }
  if found.1 < 0 then add errUnknownPID else (add found.1).candidate x.1 map found

/-- `PeerDistributionManager::addPeer`. -/
def addPeer (behind : ISP → Behind) (o : Objects Peer ISP Mgr) (m : PeerDistributionManager Peer ISP)
    (peer : Peer) : Bool × Objects Peer ISP Mgr × PeerDistributionManager Peer ISP :=
  if peer ∈ m.peers then (false, o, m)
  else
    let peers := m.peers.insert peer (PeerStats.ofPeer (o.peer peer))
    let loop := m.views.toList.foldl (addPeerToView behind o peer) { views := m.views }
    match loop.homeISP with
    | some isp =>
      (true, o.setPeer peer ((o.peer peer).setHome isp loop.homePID), ⟨loop.views, peers⟩)
    | none => (true, o, ⟨loop.views, peers⟩)

/-- `PeerDistributionManager::removePeer`. -/
def removePeer (m : PeerDistributionManager Peer ISP) (peer : Peer) :
    Bool × PeerDistributionManager Peer ISP :=
  (m.peers.contains peer,
    ⟨m.views.map fun _ view => (view.removePeer peer).2, m.peers.erase peer⟩)

/-- The changes in the statistics. -/
def statsChange (prev new : PeerStats) : PerISPPeerDistribution.StatsChange where
  isSeedChanged := new.isSeed != prev.isSeed
  uploadCapChange := new.uploadCap - prev.uploadCap
  downloadCapChange := new.downloadCap - prev.downloadCap
  uploadRateChange := new.uploadRate - prev.uploadRate
  downloadRateChange := new.downloadRate - prev.downloadRate
  activePeersChange := new.numActivePeers - prev.numActivePeers

/-- `PeerDistributionManager::updatePeerStats`. -/
def updatePeerStats (o : Objects Peer ISP Mgr) (m : PeerDistributionManager Peer ISP)
    (peer : Peer) : Bool × PeerDistributionManager Peer ISP :=
  match m.peers[peer]? with
  | none => (false, m)
  | some prevStats =>
    let newStats := PeerStats.ofPeer (o.peer peer)
    (true,
      ⟨m.views.map fun _ view => (view.updatePeerStats peer (statsChange prevStats newStats)).2,
        m.peers.insert peer newStats⟩)

/-- `PeerDistributionManager::addISP`. The new view has no peers. -/
def addISP (m : PeerDistributionManager Peer ISP) (isp : ISP) :
    Bool × PeerDistributionManager Peer ISP :=
  if isp ∈ m.views then (false, m) else (true, { m with views := m.views.insert isp {} })

/-- `PeerDistributionManager::removeISP`. -/
def removeISP (m : PeerDistributionManager Peer ISP) (isp : ISP) :
    PeerDistributionManager Peer ISP :=
  { m with views := m.views.erase isp }

/-- `PeerDistributionManager::updatePeerDistribution`. -/
def updatePeerDistribution (behind : Peer → Behind) (o : Objects Peer ISP Mgr)
    (m : PeerDistributionManager Peer ISP) (isp : ISP) :
    Int × Objects Peer ISP Mgr × PeerDistributionManager Peer ISP :=
  if isp ∈ m.views then
    let (view, o) := addPeersFromManager behind isp m.peers o
    (0, o, { m with views := m.views.insert isp view })
  else (errInvalidISP, o, m)

end PeerDistributionManager

end

/-! ## The selection manager -/

/-- `P4PSelectionManager`. -/
structure P4PSelectionManager (Peer ISP Mgr : Type) [LinearOrder Peer] [LinearOrder ISP] where
  ispMgr : Option Mgr := none
  ispPeers : PeerDistributionManager Peer ISP := {}

namespace P4PSelectionManager

variable {Peer ISP Mgr : Type} [LinearOrder Peer] [LinearOrder ISP] [Inhabited Peer]

/-- `P4PSelectionManager::setISPManager`. -/
def setISPManager (o : Objects Peer ISP Mgr) (sel : P4PSelectionManager Peer ISP Mgr)
    (ispMgr : Mgr) : Bool × P4PSelectionManager Peer ISP Mgr :=
  if sel.ispMgr.isSome then (false, sel)
  else
    let ispList := (o.ispManager ispMgr).toList.map (·.2)
    (true,
      { ispMgr := some ispMgr
        ispPeers := ispList.foldl (fun m isp => (m.addISP isp).2) sel.ispPeers })

/-- `P4PSelectionManager(isp_mgr)`, which assigns `m_isp_mgr` before it calls `setISPManager`. -/
def ofISPManager (o : Objects Peer ISP Mgr) (ispMgr : Mgr) : P4PSelectionManager Peer ISP Mgr :=
  (setISPManager o { ispMgr := some ispMgr } ispMgr).2

/-- `P4PSelectionManager::updatePeerDistribution`. The error code is returned as a `bool`. -/
def updatePeerDistribution (behind : Peer → Behind) (o : Objects Peer ISP Mgr)
    (sel : P4PSelectionManager Peer ISP Mgr) (isp : ISP) :
    Int × Objects Peer ISP Mgr × P4PSelectionManager Peer ISP Mgr :=
  let (result, o, ispPeers) := sel.ispPeers.updatePeerDistribution behind o isp
  (if result = 0 then 0 else 1, o, { sel with ispPeers })

/-- `P4PSelectionManager::addPeer`. -/
def addPeer (behind : ISP → Behind) (o : Objects Peer ISP Mgr)
    (sel : P4PSelectionManager Peer ISP Mgr) (peer : Peer) :
    Bool × Objects Peer ISP Mgr × P4PSelectionManager Peer ISP Mgr :=
  if sel.ispMgr.isNone then (false, o, sel)
  else
    let (result, o, ispPeers) := sel.ispPeers.addPeer behind o peer
    (result, o, { sel with ispPeers })

/-- `P4PSelectionManager::removePeer`. -/
def removePeer (sel : P4PSelectionManager Peer ISP Mgr) (peer : Peer) :
    Bool × P4PSelectionManager Peer ISP Mgr :=
  let (result, ispPeers) := sel.ispPeers.removePeer peer
  (result, { sel with ispPeers })

/-- `P4PSelectionManager::updatePeerStats`. -/
def updatePeerStats (o : Objects Peer ISP Mgr) (sel : P4PSelectionManager Peer ISP Mgr)
    (peer : Peer) : Bool × P4PSelectionManager Peer ISP Mgr :=
  let (result, ispPeers) := sel.ispPeers.updatePeerStats o peer
  (result, { sel with ispPeers })

end P4PSelectionManager

end Alto.App
