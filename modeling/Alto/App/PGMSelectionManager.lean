import Alto.App.GuidanceMatrix
import Alto.App.PeerDistribution
import Alto.App.UpdateManager

/-!
# The selection manager and its guidance matrices

`PGMSelectionManager` (`common/cpp/src/lib/pgm_selection_manager.cpp`) over `P4PSelectionManager`,
with the calls that it makes of `PeeringGuidanceMatrixManager`. What a server answers to the
computation of a matrix is an argument.
-/

namespace Alto.Selection

open Common Lib App Guidance

/-- `ERR_GUIDANCE_UNAVAILABLE`. -/
def errGuidanceUnavailable : Int := -101

/-- `ERR_INVALID_GUIDANCE_MATRIX`. -/
def errInvalidGuidanceMatrix : Int := -103

/-- How `PeeringGuidanceMatrix::compute` ends. It catches what the connection throws. -/
inductive ComputeResult where
  | done
  | invalidSwarmState
  | guidanceUnavailable
  | invalidOptType
deriving DecidableEq, Repr

/-- The code that `PeeringGuidanceMatrix::compute` returns. -/
def ComputeResult.code : ComputeResult → Int
  | done => 0
  | invalidSwarmState => -100
  | guidanceUnavailable => errGuidanceUnavailable
  | invalidOptType => -104

/-- The outside in one call: the allocator and libcurl, and the result of computing a matrix for a
swarm state. -/
structure Engine (ISP : Type) where
  sys : Guidance.System
  compute : Guidance.PeeringGuidanceMatrix ISP → Option SwarmState → ComputeResult

variable {Peer ISP Mgr : Type} [LinearOrder Peer] [LinearOrder ISP] [Inhabited Peer]

/-- `PeeringGuidanceMatrixManager::compute` for a matrix that is allocated. -/
def compute (engine : Engine ISP) (m : PeeringGuidanceMatrixManager ISP) (matrix : Nat)
    (object : Guidance.PeeringGuidanceMatrix ISP) (swarmState : Option SwarmState) : Int :=
  match (m.containers object.key).search matrix with
  | none => errInvalidGuidanceMatrix
  | some _ => (engine.compute object swarmState).code

/-- `PeerDistributionManager::getSwarmState`. -/
def getSwarmState (m : PeerDistributionManager Peer ISP) (isp : ISP) : SwarmState :=
  match m.views[isp]? with
  | none => {}
  | some view => view.swarmState

/-- `PGMSelectionManager`. `m_guidance` holds the addresses of the matrices, with `none` for
`NULL`. -/
structure PGMSelectionManager (Peer ISP Mgr : Type) [LinearOrder Peer] [LinearOrder ISP] extends
    P4PSelectionManager Peer ISP Mgr where
  guidanceInitialized : Bool := false
  optengineAddr : List Char := []
  optenginePort : Nat := 0
  guidanceOptsDefault : PeeringGuidanceMatrixOptions := {}
  guidanceOpts : StdMap ISP PeeringGuidanceMatrixOptions := ∅
  guidance : StdMap ISP (Option Nat) := ∅

namespace PGMSelectionManager

/-- `PGMSelectionManager::setISPManager`. -/
def setISPManager (o : Objects Peer ISP Mgr) (sel : PGMSelectionManager Peer ISP Mgr)
    (ispMgr : Mgr) : Bool × PGMSelectionManager Peer ISP Mgr :=
  match sel.toP4PSelectionManager.setISPManager o ispMgr with
  | (false, _) => (false, sel)
  | (true, base) =>
    let ispList := (o.ispManager ispMgr).toList.map (·.2)
    (true,
      { sel with
        toP4PSelectionManager := base
        guidance := ispList.foldl (fun guidance isp => guidance.insert isp none) sel.guidance })

/-- `PGMSelectionManager::getConfiguredOptions`. -/
def getConfiguredOptions (sel : PGMSelectionManager Peer ISP Mgr) (isp : ISP) :
    PeeringGuidanceMatrixOptions :=
  sel.guidanceOpts[isp]?.getD sel.guidanceOptsDefault

/-- `P4PSelectionManager::updatePeerDistribution` of a `PGMSelectionManager`. -/
def updatePeerDistribution (behind : Peer → Behind) (o : Objects Peer ISP Mgr)
    (sel : PGMSelectionManager Peer ISP Mgr) (isp : ISP) :
    Int × Objects Peer ISP Mgr × PGMSelectionManager Peer ISP Mgr :=
  let (rc, o, base) := sel.toP4PSelectionManager.updatePeerDistribution behind o isp
  (rc, o, { sel with toP4PSelectionManager := base })

/-- The matrix that `computeGuidanceInternal` computes: a new one, or the existing one with the
options that are configured. -/
def prepareMatrix (engine : Engine ISP) (m : PeeringGuidanceMatrixManager ISP)
    (sel : PGMSelectionManager Peer ISP Mgr) (isp : ISP) :
    Option Nat → Outcome (PeeringGuidanceMatrixManager ISP) (Option Nat)
  | none =>
    match m.getGuidanceMatrix engine.sys
        ⟨isp, sel.getConfiguredOptions isp, sel.optengineAddr, sel.optenginePort⟩ with
    | .returned matrix m => .returned (some matrix) m
    | .threw m => .threw m
    | .undefined => .undefined
  | some matrix => m.setOptions engine.sys matrix (sel.getConfiguredOptions isp)

/-- The end of `computeGuidanceInternal`, from the entry of the ISP that has been assigned. -/
def recompute (engine : Engine ISP) (m : PeeringGuidanceMatrixManager ISP)
    (sel : PGMSelectionManager Peer ISP Mgr) (matrix : Option Nat) :
    Outcome (PeeringGuidanceMatrixManager ISP × PGMSelectionManager Peer ISP Mgr) Int :=
  match matrix with
  | none => .undefined
  | some matrix =>
    match m.heap[matrix]? with
    | none => .undefined
    | some object =>
      if object.options.isSwarmDependent then
        let swarmState := getSwarmState sel.ispPeers object.isp
        if swarmState.getNumPIDs = 0 then .returned errGuidanceUnavailable (m, sel)
        else .returned (compute engine m matrix object (some swarmState)) (m, sel)
      else .returned (compute engine m matrix object none) (m, sel)

/-- `PGMSelectionManager::computeGuidance(isp)`, which is `computeGuidanceInternal`. -/
def computeGuidance (engine : Engine ISP) (m : PeeringGuidanceMatrixManager ISP)
    (sel : PGMSelectionManager Peer ISP Mgr) (isp : ISP) :
    Outcome (PeeringGuidanceMatrixManager ISP × PGMSelectionManager Peer ISP Mgr) Int :=
  match sel.guidance[isp]? with
  | none => .threw (m, sel)
  | some entry =>
    match sel.prepareMatrix engine m isp entry with
    | .returned matrix m =>
      recompute engine m { sel with guidance := sel.guidance.insert isp matrix } matrix
    | .threw m => .threw (m, sel)
    | .undefined => .undefined

/-- `PGMSelectionManager::getNextComputeTime`; the answer is `none` where the source reads the end of
the map. The test is the wrong way round. -/
def getNextComputeTime (sel : PGMSelectionManager Peer ISP Mgr) (isp : ISP) : Option Int :=
  if isp ∈ sel.guidance then some UpdateManager.timeInvalid else none

end PGMSelectionManager

end Alto.Selection
