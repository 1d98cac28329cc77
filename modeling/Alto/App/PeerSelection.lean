import Mathlib
import Alto.App.PGMSelectionManager
import Alto.Lib.Draws
import Alto.Lib.Rounding

/-!
# The selection of peers

`PIDPeerSelectionHelper` (`common/cpp/src/lib/pid_peer_selection_helper.cpp`), and `fillPeers`,
`selectPeersLocationOnly` and `selectPeers` of `PGMSelectionManager` (`pgm_selection_manager.cpp`), as
programs that draw the results of `rand`. A `double` is a rational number here, and a `Rounding` says
how the results of operations on them are rounded. The state counts the shared locks that are held, and
keeps a record of the quotas next to the numbers that are converted to them.
-/

namespace Alto.Selection

open Common Lib App Guidance

/-! ## Machine integers -/

/-- The conversion of an integer to `unsigned int`. -/
def toUnsigned (n : Int) : Nat := (n % 2 ^ 32).toNat

/-- The conversion of a size to `int`. -/
def toInt (n : Nat) : Int := (n : Int).bmod (2 ^ 32)

/-- The conversion of a number that is no integer to `unsigned int`, which cuts off the fraction.
Outside the range the result is the one of a conversion by way of a greater type. -/
def truncate (x : ℚ) : Nat := toUnsigned (x.num.tdiv x.den)

/-- The number behind a finite `double`. -/
def ofDouble : Double → ℚ
  | .fin q => q
  | _ => 0

/-! ## The helper for selections from a PID -/

/-- `PIDPeerSelectionHelper::Strategy`. -/
inductive Strategy where
  | unknown
  | copy
  | nocopy
deriving DecidableEq, Repr

/-- `PIDPeerSelectionHelper::PIDInfo`. The set `selected` can hold `NULL`. -/
structure PIDInfo (Peer : Type) where
  numPeers : Int
  strategy : Strategy := .unknown
  candidates : List Peer := []
  selected : List (Option Peer) := []
deriving DecidableEq

/-- `PIDPeerSelectionHelper`. -/
structure PIDPeerSelectionHelper (Peer : Type) [LinearOrder Peer] where
  ispPeers : PerISPPeerDistribution Peer := {}
  totalPeers : Nat := 0
  pidinfo : List (PIDInfo Peer) := []

section Helper

variable {Peer : Type} [LinearOrder Peer]

namespace PIDPeerSelectionHelper

/-- `PIDPeerSelectionHelper::PIDPeerSelectionHelper`. There is one entry for each PID, and one for
peers without a PID. -/
def create (ispPeers : PerISPPeerDistribution Peer) (numPids numTotalPeers : Nat) :
    PIDPeerSelectionHelper Peer where
  ispPeers
  totalPeers := numTotalPeers
  pidinfo := ((List.range numPids).map fun i : Nat => { numPeers := ispPeers.getNumPeers i }) ++
    [{ numPeers := ispPeers.getNumPeers errUnknownPID }]

/-- The entry of `m_pidinfo` for a PID. -/
def pidIdx (helper : PIDPeerSelectionHelper Peer) (pid : Int) : Int :=
  if pid = errUnknownPID then helper.pidinfo.length - 1 else pid

/-- `m_pidinfo[idx]`, if there is one. -/
def entry (helper : PIDPeerSelectionHelper Peer) (idx : Int) : Option (PIDInfo Peer) :=
  if idx < 0 then none else helper.pidinfo[idx.toNat]?

/-- `m_pidinfo[pid_idx]`, if there is one. -/
def info (helper : PIDPeerSelectionHelper Peer) (pid : Int) : Option (PIDInfo Peer) :=
  helper.entry (helper.pidIdx pid)

/-- Another value of this entry. -/
def setInfo (helper : PIDPeerSelectionHelper Peer) (pid : Int) (info : PIDInfo Peer) :
    PIDPeerSelectionHelper Peer :=
  { helper with pidinfo := helper.pidinfo.set (helper.pidIdx pid).toNat info }

/-- The choice of a strategy. It fails for an invalid PID. -/
def chooseStrategy (helper : PIDPeerSelectionHelper Peer) (pid : Int) (info : PIDInfo Peer) :
    Bool × PIDInfo Peer :=
  if info.strategy = .unknown then
    if info.numPeers < 0 then (false, info)
    else if toUnsigned (4 * helper.totalPeers) < toUnsigned info.numPeers then
      (true, { info with strategy := .nocopy })
    else
      match helper.ispPeers.listPIDPeers pid with
      | none => (false, { info with strategy := .copy })
      | some peers => (true, { info with strategy := .copy, candidates := info.candidates ++ peers })
  else (true, info)

end PIDPeerSelectionHelper

end Helper

/-! ## The state of a selection -/

/-- The local variables of `fillPeers` that its loop changes, with the value that the drawn entry of
`peercount` has in each round. -/
structure Fill where
  peercount : List Nat := []
  weights : List ℚ := []
  totalPeercount : Nat := 0
  totalWeight : ℚ := 0
  drawn : List Nat := []
deriving DecidableEq

/-- The end of a round of `fillPeers`, in which a peer has been selected from an entry. -/
def Fill.take (fp : Rounding) (fill : Fill) (j : Nat) : Fill :=
  let peercount := fill.peercount.modify j fun n => toUnsigned ((n : Int) - 1)
  let fill := { fill with peercount, totalPeercount := toUnsigned ((fill.totalPeercount : Int) - 1) }
  if (peercount[j]?).getD 0 ≤ 0 then
    { fill with
      totalWeight := fp.sub fill.totalWeight ((fill.weights[j]?).getD 0)
      weights := fill.weights.set j 0 }
  else fill

/-- A selection: `out_peers`, the helper, the variables of `fillPeers`, the shared locks that are held
on the `PerISPPeerDistribution` and on `m_views_mutex`, and each quota with what it stands for. -/
structure Selecting (Peer : Type) [LinearOrder Peer] where
  outPeers : List Peer
  helper : PIDPeerSelectionHelper Peer := {}
  fill : Fill := {}
  peersLocks : Int := 0
  viewsLocks : Int := 0
  quotas : List (ℚ × Nat) := []

/-- A program that calls `rand`, which returns a number up to `RAND_MAX`. -/
abbrev Selector (randMax : Nat) (Peer : Type) [LinearOrder Peer] (A : Type) :=
  Draws (Fin (randMax + 1)) (Selecting Peer) A

namespace Selector

variable {randMax : Nat} {Peer : Type} [LinearOrder Peer]

/-- `out_peers.push_back(peer)`. -/
def push (peer : Peer) : Selector randMax Peer Unit :=
  Draws.modify fun s => { s with outPeers := s.outPeers ++ [peer] }

/-- A new state of an entry of the helper. -/
def setInfo (pid : Int) (info : PIDInfo Peer) : Selector randMax Peer Unit :=
  Draws.modify fun s => { s with helper := s.helper.setInfo pid info }

/-- An `unsigned int` that is computed: the record holds the number that is converted, computed without
wrapping around. -/
def quota (exact : ℚ) (value : Nat) : Selector randMax Peer Nat := do
  Draws.modify fun s => { s with quotas := s.quotas ++ [(exact, value)] }
  pure value

/-- `PerISPPeerDistribution::getRandomPeer`. -/
def getRandomPeer (ispPeers : PerISPPeerDistribution Peer) (pid : Int) :
    Selector randMax Peer (Option Peer) :=
  if 0 < ispPeers.getNumPeers pid then do
    let r ← Draws.draw
    pure (ispPeers.getRandomPeer pid r)
  else pure none

/-- `PIDPeerSelectionHelper::selectPeer(int)` with the strategy `ST_COPY`. -/
def takeCopied (pid : Int) (info : PIDInfo Peer) : Selector randMax Peer (Option Peer) :=
  if info.candidates.isEmpty then pure none
  else do
    let r ← Draws.draw
    let peerIdx := r % info.candidates.length
    match info.candidates[peerIdx]?, info.candidates.getLast? with
    | some peer, some back =>
      setInfo pid { info with
        candidates := (info.candidates.set peerIdx back).dropLast
        numPeers := info.numPeers - 1 }
      pure (some peer)
    | _, _ => Draws.undefined

/-- `PIDPeerSelectionHelper::selectPeer(int)` with the strategy `ST_NOCOPY`. -/
def takeUnselected (ispPeers : PerISPPeerDistribution Peer) (pid : Int) (info : PIDInfo Peer) :
    Selector randMax Peer (Option Peer) := do
  let peer ← Draws.loop (fun () => do
    let peer ← getRandomPeer ispPeers pid
    if peer ∈ info.selected then pure (.inl ()) else pure (.inr peer)) ()
  setInfo pid { info with
    selected := peer :: info.selected
    numPeers := info.numPeers - 1 }
  pure peer

/-- `PIDPeerSelectionHelper::selectPeer(int)`. -/
def selectPeer (pid : Int) : Selector randMax Peer (Option Peer) := do
  let helper := (← Draws.get).helper
  match helper.info pid with
  | none => Draws.undefined
  | some info =>
    let (chosen, info) := helper.chooseStrategy pid info
    setInfo pid info
    if !chosen then pure none
    else if info.strategy = .copy then takeCopied pid info
    else takeUnselected helper.ispPeers pid info

/-- The entry that a coin falls on, where each has this number of peers and the last one takes the
rest. -/
def pick : Int → List Int → Nat
  | coin, n :: n' :: ns => if coin - n < 0 then 0 else pick (coin - n) (n' :: ns) + 1
  | _, _ => 0

/-- `PIDPeerSelectionHelper::selectPeer(const std::vector<int>)`, which reads the entries of the PIDs as
they are given. -/
def selectPeerOf (pids : List Int) : Selector randMax Peer (Option Peer) := do
  let helper := (← Draws.get).helper
  match pids.mapM helper.entry with
  | none => Draws.undefined
  | some infos =>
    let counts := infos.map (·.numPeers)
    if counts.sum ≤ 0 then pure none
    else
      let r ← Draws.draw
      match pids[pick ((r : Nat) % counts.sum) counts]? with
      | none => Draws.undefined
      | some pid => selectPeer pid

/-! ## Filling by weights -/

/-- The entry that a random number falls into, where each has this weight and the last one takes the
rest. -/
def wheel (fp : Rounding) : ℚ → List ℚ → Nat
  | r, w :: w' :: ws => if w ≤ r then wheel fp (fp.sub r w) (w' :: ws) + 1 else 0
  | _, _ => 0

/-- `(rand() / (double)RAND_MAX) * total_weight`. -/
def point (fp : Rounding) (rand : Fin (randMax + 1)) (totalWeight : ℚ) : ℚ :=
  fp.mul (fp.round (rand / randMax)) totalWeight

/-- The loop of `fillPeers`. -/
def fillRound (fp : Rounding) (pids : List Int) (maxPeers : Nat) :
    Selector randMax Peer (Unit ⊕ Unit) := do
  let rand ← Draws.draw
  let fill := (← Draws.get).fill
  let j := wheel fp (point fp rand fill.totalWeight) fill.weights
  Draws.modify fun s =>
    { s with fill := { s.fill with drawn := s.fill.drawn ++ [(s.fill.peercount[j]?).getD 0] } }
  match pids[j]? with
  | none => Draws.undefined
  | some pid =>
    match ← selectPeer pid with
    | none => Draws.throw
    | some peer =>
      push peer
      Draws.modify fun s => { s with fill := s.fill.take fp j }
      let s ← Draws.get
      if s.outPeers.length < maxPeers ∧ 0 < s.fill.totalPeercount then pure (.inl ())
      else pure (.inr ())

/-- `fillPeers`. -/
def fillPeers (fp : Rounding) (pids : List Int) (peercount : List Nat) (weights : List ℚ)
    (maxPeers : Nat) : Selector randMax Peer Unit :=
  if pids.isEmpty then pure ()
  else if pids.length ≠ peercount.length ∨ pids.length ≠ weights.length then pure ()
  else do
    Draws.modify fun s => { s with fill :=
      { peercount
        weights
        totalPeercount := toUnsigned peercount.sum
        totalWeight := weights.foldl fp.add 0 } }
    Draws.loop (fun () => fillRound fp pids maxPeers) ()

/-! ## The stages of a selection -/

/-- The indexes of some PIDs. -/
def pidList (pids : List Nat) : List Int := pids.map fun i : Nat => (i : Int)

/-- A round of the loop over the peers of the home PID, where this number has been selected. The peer
that they are selected for is left out. -/
def homeRound (peer : Peer) (homePid : Int) (number selected : Nat) :
    Selector randMax Peer (Nat ⊕ Unit) :=
  if selected < number then do
    match ← selectPeer homePid with
    | none => pure (.inr ())
    | some candPeer =>
      if candPeer = peer then pure (.inl selected)
      else
        push candPeer
        pure (.inl (selected + 1))
  else pure (.inr ())

/-- Peers of the home PID, up to this number. -/
def selectHome (peer : Peer) (homePid : Int) (number : Nat) : Selector randMax Peer Unit :=
  Draws.loop (homeRound peer homePid number) 0

/-- A round of a loop over the peers of some PIDs. -/
def fromRound (pids : List Int) (number selected : Nat) : Selector randMax Peer (Nat ⊕ Unit) :=
  if selected < number then do
    match ← selectPeerOf pids with
    | none => pure (.inr ())
    | some candPeer =>
      push candPeer
      pure (.inl (selected + 1))
  else pure (.inr ())

/-- Peers of some PIDs, up to this number. -/
def selectFrom (pids : List Int) (number : Nat) : Selector randMax Peer Unit :=
  Draws.loop (fromRound pids number) 0

/-- `num_peers * intrapid_pct + 0.5`. -/
def homeShare (fp : Rounding) (numPeers : Nat) (intrapidPct : ℚ) : ℚ :=
  fp.add (fp.mul numPeers intrapidPct) (1 / 2)

/-- `num_peers * intraisp_pct + num_prefilled - out_peers.size() + 0.5`. -/
def intraShare (fp : Rounding) (numPeers : Nat) (intraispPct : ℚ) (prefilled size : Nat) : ℚ :=
  fp.add (fp.sub (fp.add (fp.mul numPeers intraispPct) (toInt prefilled)) (fp.round size)) (1 / 2)

/-- `intraisp_pct * num_peers + num_prefilled + 0.5`. -/
def intraLimit (fp : Rounding) (numPeers : Nat) (intraispPct : ℚ) (prefilled : Nat) : ℚ :=
  fp.add (fp.add (fp.mul intraispPct numPeers) (toInt prefilled)) (1 / 2)

/-- The conversion of a `double` to a quota. -/
def truncated (x : ℚ) : Selector randMax Peer Nat := quota x (truncate x)

/-- `num_peers + num_prefilled`, as `unsigned int`. -/
def withPrefilled (numPeers prefilled : Nat) : Selector randMax Peer Nat := do
  let prefilled ← quota (toInt prefilled) (toUnsigned (toInt prefilled))
  quota (numPeers + prefilled) (toUnsigned (numPeers + prefilled))

/-- `num_peers + num_prefilled - out_peers.size()`, converted to `unsigned int`. -/
def remaining (numPeers prefilled : Nat) : Selector randMax Peer Nat := do
  let sum ← withPrefilled numPeers prefilled
  let size := (← Draws.get).outPeers.length
  quota ((sum : ℚ) - size) (toUnsigned (((sum : Int) - size) % 2 ^ 64))

end Selector

/-! ## The guidance and the manager -/

/-- What `PeeringGuidanceMatrix::getWeights` reads: the options, and the tables that have been computed.
There is a row for each internal PID. -/
structure GuidanceTables where
  options : PeeringGuidanceMatrixOptions := {}
  weights : List (List ℚ) := []
  intrapidPcts : List ℚ := []
  intraispPcts : List ℚ := []

/-- `PeeringGuidanceMatrix::getWeights`: the percentages and the weights, or `none` for an error. -/
def GuidanceTables.getWeights (tables : GuidanceTables) (srcPid : Int) : Option (ℚ × ℚ × List ℚ) :=
  if tables.options.opttype = .locationOnly then
    some (ofDouble tables.options.intrapidPct, ofDouble tables.options.intraispPct, [])
  else if srcPid < 0 ∨ tables.weights.length ≤ toUnsigned srcPid then none
  else
    some ((tables.intrapidPcts[srcPid.toNat]?).getD 0, (tables.intraispPcts[srcPid.toNat]?).getD 0,
      (tables.weights[srcPid.toNat]?).getD [])

/-- A selection manager, the objects that it knows, the guidance matrices at their addresses, and the
arithmetic that it computes with. -/
structure SelectionContext (Peer ISP Mgr : Type) [LinearOrder Peer] [LinearOrder ISP] where
  objects : Objects Peer ISP Mgr
  manager : PGMSelectionManager Peer ISP Mgr
  tables : Nat → GuidanceTables
  arith : Rounding

namespace SelectionContext

variable {randMax : Nat} {Peer ISP Mgr : Type} [LinearOrder Peer] [LinearOrder ISP] [Inhabited Peer]
variable (ctx : SelectionContext Peer ISP Mgr)

/-- `PeerDistributionManager::getPeerDistribution`, which keeps its lock if there is a view. -/
def getPeerDistribution (isp : ISP) :
    Selector randMax Peer (Option (PerISPPeerDistribution Peer)) := do
  Draws.modify fun s => { s with viewsLocks := s.viewsLocks + 1 }
  match ctx.manager.ispPeers.views[isp]? with
  | none =>
    Draws.modify fun s => { s with viewsLocks := s.viewsLocks - 1 }
    pure none
  | some view => pure (some view)

/-- `PeerDistributionManager::releasePeerDistribution`. -/
def releasePeerDistribution (isp : ISP) : Selector randMax Peer Unit :=
  match ctx.manager.ispPeers.views[isp]? with
  | none => pure ()
  | some _ => Draws.modify fun s => { s with viewsLocks := s.viewsLocks - 1 }

/-- `PerISPPeerDistribution::lock`. -/
def lock : Selector randMax Peer Unit :=
  Draws.modify fun s => { s with peersLocks := s.peersLocks + 1 }

/-- `PerISPPeerDistribution::unlock`. -/
def unlock : Selector randMax Peer Unit :=
  Draws.modify fun s => { s with peersLocks := s.peersLocks - 1 }

/-- `PGMSelectionManager::selectPeersLocationOnly`, up to the trace messages. -/
def selectPeersLocationOnly (peer : Peer) (homeIsp : ISP) (homePid : Int) (numPeers : Nat) :
    Selector randMax Peer Int := do
  match ← ctx.getPeerDistribution homeIsp with
  | none => pure errGuidanceUnavailable
  | some ispPeers =>
    lock
    let prefilled := (← Draws.get).outPeers.length
    let map := ctx.objects.pidMap homeIsp
    if map.numIntraISPPIDs ≤ toUnsigned homePid then pure errGuidanceUnavailable
    else
      let options := ctx.manager.getConfiguredOptions homeIsp
      let intraispPct := ofDouble options.intraispPct
      let numInternalPids := (map.pids.filter fun pid => !pid.external).length
      let intrapidPct :=
        if intraispPct < ofDouble options.intrapidPct ∨ numInternalPids = 1 then intraispPct
        else ofDouble options.intrapidPct
      Draws.modify fun s => { s with
        helper := .create ispPeers map.numTotalPIDs (toUnsigned (numPeers + 1)) }
      let numIntrapid ← Selector.truncated (Selector.homeShare ctx.arith numPeers intrapidPct)
      Selector.selectHome peer homePid numIntrapid
      let size := (← Draws.get).outPeers.length
      let numIntraisp ← Selector.truncated
        (Selector.intraShare ctx.arith numPeers intraispPct prefilled size)
      let intraISPPids := (List.range map.numIntraISPPIDs).filter fun i => i ≠ toUnsigned homePid
      Selector.selectFrom (Selector.pidList intraISPPids) numIntraisp
      let numExternal ← Selector.remaining numPeers prefilled
      let externalPids := (List.range map.numTotalPIDs).drop map.numIntraISPPIDs
      Selector.selectFrom (Selector.pidList externalPids) numExternal
      let numRandom ← Selector.remaining numPeers prefilled
      Selector.selectFrom (Selector.pidList (List.range map.numTotalPIDs)) numRandom
      unlock
      ctx.releasePeerDistribution homeIsp
      pure 0

/-- The PIDs that pass the filter of `selectPeers`: their weight is positive, they hold peers, and they
are not the home PID. -/
def passes (ispPeers : PerISPPeerDistribution Peer) (weights : List ℚ) (homePid : Int) (i : Nat) :
    Bool :=
  0 < (weights[i]?).getD 0 && ispPeers.getNumPeers i ≠ 0 && (i : Int) ≠ homePid

/-- The intra-ISP PIDs among those that pass the filter. -/
def intraISPPids (map : ISPPIDMap) (ispPeers : PerISPPeerDistribution Peer) (weights : List ℚ)
    (homePid : Int) : List Nat :=
  (List.range map.numTotalPIDs).filter fun i =>
    passes ispPeers weights homePid i && i < map.numIntraISPPIDs

/-- The external PIDs among those that pass the filter. -/
def externalPids (map : ISPPIDMap) (ispPeers : PerISPPeerDistribution Peer) (weights : List ℚ)
    (homePid : Int) : List Nat :=
  (List.range map.numTotalPIDs).filter fun i =>
    passes ispPeers weights homePid i && !(i < map.numIntraISPPIDs)

/-- `fillPeers` for PIDs that passed the filter. -/
def fillFrom (fp : Rounding) (ispPeers : PerISPPeerDistribution Peer) (weights : List ℚ)
    (pids : List Nat) (maxPeers : Nat) : Selector randMax Peer Unit :=
  Selector.fillPeers fp (Selector.pidList pids)
    (pids.map fun i : Nat => toUnsigned (ispPeers.getNumPeers i))
    (pids.map fun i : Nat => (weights[i]?).getD 0) maxPeers

/-- The weights that `selectPeers` looks up. -/
def lookupWeights (homeIsp : ISP) (homePid : Int) : Option (ℚ × ℚ × List ℚ) := do
  let guidance ← ctx.manager.guidance[homeIsp]?
  let matrix ← guidance
  let (intrapidPct, intraispPct, weights) ← (ctx.tables matrix).getWeights homePid
  if weights.length = (ctx.objects.pidMap homeIsp).numTotalPIDs then
    some (intrapidPct, intraispPct, weights)
  else none

/-- The part of `PGMSelectionManager::selectPeers` behind the lookup of the weights. -/
def selectByWeights (peer : Peer) (homeIsp : ISP) (homePid : Int) (numPeers : Nat)
    (intrapidPct intraispPct : ℚ) (weights : List ℚ) : Selector randMax Peer Int := do
  match ← ctx.getPeerDistribution homeIsp with
  | none => pure errGuidanceUnavailable
  | some ispPeers =>
    lock
    let map := ctx.objects.pidMap homeIsp
    let prefilled := (← Draws.get).outPeers.length
    Draws.modify fun s => { s with
      helper := .create ispPeers map.numTotalPIDs (toUnsigned (numPeers + 1)) }
    let numIntrapid ← Selector.truncated (Selector.homeShare ctx.arith numPeers intrapidPct)
    Selector.selectHome peer homePid numIntrapid
    let maxIntraisp ← Selector.truncated
      (Selector.intraLimit ctx.arith numPeers intraispPct prefilled)
    fillFrom ctx.arith ispPeers weights (intraISPPids map ispPeers weights homePid) maxIntraisp
    let maxExternal ← Selector.withPrefilled numPeers prefilled
    fillFrom ctx.arith ispPeers weights (externalPids map ispPeers weights homePid) maxExternal
    let numRandom ← Selector.remaining numPeers prefilled
    Selector.selectFrom (Selector.pidList (List.range map.numTotalPIDs)) numRandom
    unlock
    ctx.releasePeerDistribution homeIsp
    pure 0

/-- `PGMSelectionManager::selectPeers`. -/
def selectPeers (peer : Peer) (numPeers : Nat) : Selector randMax Peer Int :=
  match (ctx.objects.peer peer).homeISP with
  | none => pure errGuidanceUnavailable
  | some homeIsp =>
    let homePid := (ctx.objects.peer peer).homePID
    if homePid < 0 then pure errGuidanceUnavailable
    else if (ctx.objects.pidMap homeIsp).numTotalPIDs ≤ toUnsigned homePid then
      pure errGuidanceUnavailable
    else if (ctx.manager.getConfiguredOptions homeIsp).opttype = .locationOnly then
      ctx.selectPeersLocationOnly peer homeIsp homePid numPeers
    else
      match ctx.lookupWeights homeIsp homePid with
      | none => pure errGuidanceUnavailable
      | some (intrapidPct, intraispPct, weights) =>
        ctx.selectByWeights peer homeIsp homePid numPeers intrapidPct intraispPct weights

end SelectionContext

end Alto.Selection
