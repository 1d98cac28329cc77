import Mathlib
import Alto.Common.ISPPIDMap

/-!
# Swarm statistics

`SwarmState` (`common/cpp/src/lib/swarm_state.cpp`). The counters are exact numbers in place of
`unsigned int` and `float`.
-/

namespace Alto.App

/-- `SwarmState::PIDState`. -/
structure PIDState where
  numSeeds : Int := 0
  numLeechers : Int := 0
  uploadCap : Rat := 0
  downloadCap : Rat := 0
  uploadRate : Rat := 0
  downloadRate : Rat := 0
  numActivePeers : Int := 0
deriving DecidableEq

/-- `p4p::app::SwarmState`. -/
structure SwarmState where
  pids : List PIDState := []
deriving DecidableEq

namespace SwarmState

/-- `SwarmState::SwarmState(num_pids)`. -/
def ofNumPIDs (numPIDs : Nat) : SwarmState := ⟨List.replicate numPIDs {}⟩

/-- `SwarmState::getNumPIDs`. -/
def getNumPIDs (s : SwarmState) : Nat := s.pids.length

/-- `SwarmState::isValid`. -/
def isValid (s : SwarmState) (pid : Int) : Bool := decide (0 ≤ pid ∧ pid.toNat < s.pids.length)

/-- A getter: a field of `m_pids[pid]`, or `ERR_UNKNOWN_PID`. -/
def getField {N : Type} [IntCast N] (field : PIDState → N) (s : SwarmState) (pid : Int) : N :=
  if s.isValid pid then field (s.pids.getD pid.toNat {}) else (errUnknownPID : Int)

/-- `SwarmState::getNumSeeds`. -/
def getNumSeeds : SwarmState → Int → Int := getField PIDState.numSeeds

/-- `SwarmState::getNumLeechers`. -/
def getNumLeechers : SwarmState → Int → Int := getField PIDState.numLeechers

/-- `SwarmState::getUploadCapacity`. -/
def getUploadCapacity : SwarmState → Int → Rat := getField PIDState.uploadCap

/-- `SwarmState::getDownloadCapacity`. -/
def getDownloadCapacity : SwarmState → Int → Rat := getField PIDState.downloadCap

/-- `SwarmState::getUploadRate`. -/
def getUploadRate : SwarmState → Int → Rat := getField PIDState.uploadRate

/-- `SwarmState::getDownloadRate`, which returns `download_cap`. -/
def getDownloadRate : SwarmState → Int → Rat := getField PIDState.downloadCap

/-- `SwarmState::getNumActivePeers`. -/
def getNumActivePeers : SwarmState → Int → Int := getField PIDState.numActivePeers

/-- `SwarmState::update`. The change of the seeds is added to `upload_cap`. -/
def update (s : SwarmState) (pid : Int) (changeSeeds changeLeechers : Int)
    (changeUploadCap changeDownloadCap changeUploadRate changeDownloadRate : Rat)
    (changeActivePeers : Int) : SwarmState :=
  if s.isValid pid then
    ⟨s.pids.modify pid.toNat fun p =>
      { p with
        numLeechers := p.numLeechers + changeLeechers
        uploadCap := p.uploadCap + changeSeeds + changeUploadCap
        downloadCap := p.downloadCap + changeDownloadCap
        uploadRate := p.uploadRate + changeUploadRate
        downloadRate := p.downloadRate + changeDownloadRate
        numActivePeers := p.numActivePeers + changeActivePeers }⟩
  else s

end SwarmState

end Alto.App
