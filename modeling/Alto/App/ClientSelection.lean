import Alto.App.PeerSelection
import Alto.Common.Double
import Alto.Common.ISPPIDMap

/-!
# The selection at a client

`P4PClientPeerSelectionLocation` (`common/cpp/src/lib/client_peer_selection_location.cpp`). What
`ReadFromFile` makes of a file is a parameter, with `none` for an error code. The constant `0.99` is
the double closest to it.
-/

namespace Alto.App

open Guidance Lib Selection

/-- `P4PClientPeerSelectionLocation`. -/
structure P4PClientPeerSelectionLocation where
  selfPid : Int := -1
  pidmap : Option ISPPIDMap := none
  intraIspPids : Nat := 0
  pids : Nat := 0
  intraPidPct : Double
  intraIspPct : Double

/-- `ISPPIDMap::loadP4PInfo` for a file. -/
def loadP4PInfo (behind : Behind) (readFromFile : List Char → Option (List (PID × List IPPrefix)))
    (filename : List Char) : Option ISPPIDMap :=
  (readFromFile filename).map (ISPPIDMap.ofPrefixes behind)

namespace P4PClientPeerSelectionLocation

/-- The end of the loop of the constructor for the home ISP. -/
def setHome (self : P4PClientPeerSelectionLocation) (selfPid : Int) (pidmap : ISPPIDMap) :
    P4PClientPeerSelectionLocation :=
  { self with
    selfPid
    pidmap := some pidmap
    intraIspPids := pidmap.numIntraISPPIDs
    pids := pidmap.numTotalPIDs
    intraPidPct := if pidmap.numIntraISPPIDs = 1 then self.intraIspPct else self.intraPidPct }

/-- The loop of the constructor. -/
def lookUpHome (behind : Behind) (load : List Char → Option ISPPIDMap) (address : IPPrefix) :
    List (List Char) → P4PClientPeerSelectionLocation → P4PClientPeerSelectionLocation
  | [], self => self
  | filename :: filenames, self =>
    match load filename with
    | none => lookUpHome behind load address filenames self
    | some pidmap =>
      let selfPid := (pidmap.lookup behind address).1
      if (pidmap.getPIDInfo selfPid).external = false ∨ selfPid < 0 then
        self.setHome selfPid pidmap
      else lookUpHome behind load address filenames self

/-- The constructor. `intraPidPct` and `intraIspPct` are the arguments, and `memory` is what the
members of these names hold before. -/
def new (behind : Behind) (readFromFile : List Char → Option (List (PID × List IPPrefix)))
    (memory : Double × Double) (address : IPPrefix) (filenames : List (List Char))
    (intraPidPct intraIspPct : Double) : P4PClientPeerSelectionLocation :=
  lookUpHome behind (loadP4PInfo behind readFromFile) address filenames
    { intraPidPct :=
        if intraPidPct.lt 0 || intraIspPct.lt intraPidPct then memory.1 else intraPidPct
      intraIspPct :=
        if intraIspPct.lt intraPidPct ||
            Double.lt (.fin (8917127262193582 / 2 ^ 53)) intraIspPct then memory.2
        else intraIspPct }

/-! ## The selection -/

/-- A program that appends to `out_peers` and calls `rand`. -/
abbrev ClientSelector (randMax : Nat) (Peer A : Type) := Draws (Fin (randMax + 1)) (List Peer) A

section

variable {randMax : Nat} {Peer : Type}

/-- A round of a loop over a group of peers, of which this number has been selected. -/
def takeRound (number : Nat) :
    List Peer × Nat → ClientSelector randMax Peer ((List Peer × Nat) ⊕ Unit)
  | (peers, selected) =>
    if selected < number then
      if peers.isEmpty then pure (.inr ())
      else do
        let r ← Draws.draw
        let peerIdx := r % peers.length
        match peers[peerIdx]?, peers.getLast? with
        | some candPeer, some back =>
          Draws.modify fun outPeers => outPeers ++ [candPeer]
          pure (.inl ((peers.set peerIdx back).dropLast, selected + 1))
        | _, _ => Draws.undefined
    else pure (.inr ())

/-- Peers of a group, up to this number. -/
def takePeers (peers : List Peer) (number : Nat) : ClientSelector randMax Peer Unit :=
  Draws.loop (takeRound number) (peers, 0)

variable (behind : Behind) (address : Peer → IPPrefix) (self : P4PClientPeerSelectionLocation)

/-- The PID of a peer. -/
def pidOf (pidmap : ISPPIDMap) (peer : Peer) : Int := (pidmap.lookup behind (address peer)).1

/-- A PID of the home ISP. -/
def intraIsp (pid : Int) : Bool := 0 ≤ pid ∧ pid < toInt self.intraIspPids

variable (pidmap : ISPPIDMap) (candidates : List Peer)

/-- The candidates in the client's own PID. -/
def intraPidPeers : List Peer :=
  candidates.filter fun p => pidOf behind address pidmap p = self.selfPid

/-- The candidates in the other PIDs of the home ISP. -/
def intraIspPeers : List Peer :=
  candidates.filter fun p => pidOf behind address pidmap p ≠ self.selfPid ∧
    self.intraIsp (pidOf behind address pidmap p)

/-- The other candidates. -/
def externalPeers : List Peer :=
  candidates.filter fun p => pidOf behind address pidmap p ≠ self.selfPid ∧
    ¬ self.intraIsp (pidOf behind address pidmap p)

/-- Too few candidates are copied behind the peers that have been filled in. -/
def copyCandidates (numToSelect prefilled : Nat) : ClientSelector randMax Peer Unit :=
  if candidates.length < numToSelect then
    Draws.modify fun outPeers => outPeers.take prefilled ++ candidates
  else pure ()

variable (fp : Rounding)

/-- `num_to_select * m_intra_pid_pct + 0.5`. -/
def intraPidShare (numToSelect : Nat) : ℚ :=
  fp.add (fp.mul numToSelect (ofDouble self.intraPidPct)) (1 / 2)

/-- `num_to_select * m_intra_isp_pct + num_prefilled - out_peers.size() + 0.5`. -/
def intraIspShare (numToSelect prefilled size : Nat) : ℚ :=
  fp.add (fp.sub (fp.add (fp.mul numToSelect (ofDouble self.intraIspPct)) prefilled)
    (fp.round size)) (1 / 2)

example : ({ intraPidPct := 0, intraIspPct := .fin (6305039478318694 / 2 ^ 53) } :
    P4PClientPeerSelectionLocation).intraIspShare .double 5 0 3 = 1 := by decide +kernel

/-- `P4PClientPeerSelectionLocation::selectPeers`, up to the trace messages. -/
def selectPeers (numToSelect : Nat) : ClientSelector randMax Peer Int :=
  match self.pidmap with
  | none => pure errGuidanceUnavailable
  | some pidmap =>
    if self.selfPid < 0 ∨ toInt self.intraIspPids ≤ self.selfPid ∨ candidates.isEmpty then
      pure errGuidanceUnavailable
    else do
      let prefilled := toUnsigned (← Draws.get).length
      copyCandidates candidates numToSelect prefilled
      takePeers (intraPidPeers behind address self pidmap candidates)
        (truncate (self.intraPidShare fp numToSelect))
      let size := (← Draws.get).length
      takePeers (intraIspPeers behind address self pidmap candidates)
        (truncate (self.intraIspShare fp numToSelect prefilled size))
      let size := (← Draws.get).length
      takePeers (externalPeers behind address self pidmap candidates)
        (toUnsigned ((toUnsigned (numToSelect + prefilled) : Int) - size))
      pure 0

end

end P4PClientPeerSelectionLocation

end Alto.App
