import Alto.App.PGMSelectionManager
import Alto.Verify.PeerBuckets
import Alto.Verify.UpdateManager

/-!
# ISPs that a selection manager does not maintain

An ISP may be known to the update manager and not to a selection manager, since ISPs can be added to
the `ISPManager` after the selection manager has been set up. None of the three calls that a
`TYPE_GUIDANCE` task makes tells such an ISP from the others by the code that the task expects, and
the second one ends the task by an exception.
-/

namespace Alto.Selection

open Common Lib App Guidance

variable {Peer ISP Mgr : Type} [LinearOrder Peer] [LinearOrder ISP]

/-- The ISP has an entry in the map of guidance matrices. -/
def PGMSelectionManager.Maintains (sel : PGMSelectionManager Peer ISP Mgr) (isp : ISP) : Prop :=
  isp ∈ sel.guidance

/-! ## Guidance -/

section Guidance

variable (engine : Engine ISP) (m : PeeringGuidanceMatrixManager ISP)
variable (sel : PGMSelectionManager Peer ISP Mgr) (isp : ISP)

/-- `computeGuidance` answers `ERR_INVALID_ISP` for exactly the ISPs that are not maintained, and then
changes nothing. -/
def GuidanceIgnores : Prop :=
  ((∃ s, sel.computeGuidance engine m isp = .returned errInvalidISP s) ↔ ¬ sel.Maintains isp) ∧
    (¬ sel.Maintains isp → sel.computeGuidance engine m isp = .returned errInvalidISP (m, sel))

/-- `getNextComputeTime` answers `TIME_INVALID` for exactly the ISPs that are not maintained. -/
def NextTimeIgnores : Prop :=
  sel.getNextComputeTime isp = some UpdateManager.timeInvalid ↔ ¬ sel.Maintains isp

theorem computeGuidance_out (hout : ¬ sel.Maintains isp) :
    sel.computeGuidance engine m isp = .threw (m, sel) := by
  have hnone : sel.guidance[isp]? = none := StdMap.get_eq_none hout
  simp only [PGMSelectionManager.computeGuidance, hnone]

/-- The codes of a computation are others. -/
theorem compute_ne (matrix : Nat) (object : Guidance.PeeringGuidanceMatrix ISP)
    (swarmState : Option SwarmState) :
    compute engine m matrix object swarmState ≠ errInvalidISP := by
  unfold compute
  split
  · decide
  · cases engine.compute object swarmState <;> decide

theorem recompute_ne (matrix : Option Nat)
    (s : PeeringGuidanceMatrixManager ISP × PGMSelectionManager Peer ISP Mgr) :
    PGMSelectionManager.recompute engine m sel matrix ≠ .returned errInvalidISP s := by
  intro h
  unfold PGMSelectionManager.recompute at h
  split at h
  · cases h
  next matrix =>
  split at h
  · cases h
  next object _ =>
  have hne := compute_ne engine m matrix object
  split at h
  · dsimp only at h
    split at h
    · cases h
    · injection h with hcode
      exact hne _ hcode
  · injection h with hcode
    exact hne _ hcode

theorem computeGuidance_ne
    (s : PeeringGuidanceMatrixManager ISP × PGMSelectionManager Peer ISP Mgr) :
    sel.computeGuidance engine m isp ≠ .returned errInvalidISP s := by
  unfold PGMSelectionManager.computeGuidance
  split
  · nofun
  · split
    · exact recompute_ne _ _ _ _ _
    · nofun
    · nofun

theorem guidance_ignores_iff : GuidanceIgnores engine m sel isp ↔ sel.Maintains isp := by
  constructor
  · intro h
    by_contra hout
    exact computeGuidance_ne engine m sel isp _ (h.2 hout)
  · intro hin
    refine ⟨⟨?_, absurd hin⟩, absurd hin⟩
    rintro ⟨s, hs⟩
    exact absurd hs (computeGuidance_ne engine m sel isp s)

theorem not_nextTime_ignores : ¬ NextTimeIgnores sel isp := by
  unfold NextTimeIgnores PGMSelectionManager.getNextComputeTime PGMSelectionManager.Maintains
  by_cases h : isp ∈ sel.guidance <;> simp [h]

end Guidance

/-! ## Peers -/

section Peers

variable [Inhabited Peer]
variable (behind : Peer → Behind) (o : Objects Peer ISP Mgr) (sel : PGMSelectionManager Peer ISP Mgr)
variable (isp : ISP)

/-- `updatePeerDistribution` answers `ERR_INVALID_ISP` for exactly the ISPs that are not maintained,
and then changes nothing. -/
def DistributionIgnores : Prop :=
  ((sel.updatePeerDistribution behind o isp).1 = errInvalidISP ↔ ¬ sel.Maintains isp) ∧
    (¬ sel.Maintains isp → (sel.updatePeerDistribution behind o isp).2 = (o, sel))

theorem updatePeerDistribution_ne :
    (sel.updatePeerDistribution behind o isp).1 ≠ errInvalidISP := by
  simp only [PGMSelectionManager.updatePeerDistribution,
    P4PSelectionManager.updatePeerDistribution]
  split <;> decide

theorem distribution_ignores_iff :
    DistributionIgnores behind o sel isp ↔ sel.Maintains isp := by
  have hne := updatePeerDistribution_ne behind o sel isp
  constructor
  · intro h
    by_contra hout
    exact hne (h.1.2 hout)
  · intro hin
    exact ⟨⟨fun h => absurd h hne, absurd hin⟩, absurd hin⟩

end Peers

/-! ## The task of the update manager -/

section Task

variable {Peer Mgr : Type} [LinearOrder Peer] [Inhabited Peer]
variable (behind : Peer → Behind) (o : Objects Peer Nat Mgr) (engine : Engine Nat)
variable (m : PeeringGuidanceMatrixManager Nat) (sel : PGMSelectionManager Peer Nat Mgr)

/-- What the three calls return to a `TYPE_GUIDANCE` task for an ISP. Such a task reads nothing of
`loadP4PInfo` and of the time-to-live. -/
def taskOutcome (isp : Nat) (now : Int) : UpdateManager.Outcome :=
  let distribution := sel.updatePeerDistribution behind o isp
  let guidance := distribution.2.2.computeGuidance engine m isp
  { now, loadP4PInfo := 0, ttl := 0
    updatePeerDistribution := distribution.1
    computeGuidance :=
      match guidance with
      | .returned rc _ => some rc
      | _ => none
    nextComputeTime :=
      match guidance with
      | .returned _ (_, sel) => (sel.getNextComputeTime isp).getD 0
      | _ => 0 }

/-- No exception leaves `P4PUpdateManager::run` while it executes a `TYPE_GUIDANCE` task for the
ISP. -/
def TaskIgnores (isp : Nat) : Prop :=
  ∀ (allocator : Allocator) (steps : List UpdateManager.Step) (manager : UpdateManager) (now : Int)
    (task : Task),
    Run (UpdateManager.step allocator) (fun _ _ => True) UpdateManager.init steps manager →
    manager.due now = some task → task.type = .guidance → task.isp = isp →
    ∃ manager', manager.runTask allocator now (taskOutcome behind o engine m sel isp now) =
      some manager'

/-- No call and no task of the update manager goes wrong for an ISP, maintained or not. -/
structure IgnoresUnknown (isp : Nat) : Prop where
  distribution : DistributionIgnores behind o sel isp
  guidance : GuidanceIgnores engine m sel isp
  nextTime : NextTimeIgnores sel isp
  task : TaskIgnores behind o engine m sel isp

theorem taskOutcome_out {isp : Nat} (hout : ¬ sel.Maintains isp) (now : Int) :
    (taskOutcome behind o engine m sel isp now).computeGuidance = none := by
  simp only [taskOutcome]
  rw [computeGuidance_out]
  exact hout

/-- `getNextComputeTime` is wrong for every ISP. The other two calls are right for exactly the ISPs
that are maintained, and a task for any other ISP throws. -/
theorem unknown_isps_not_ignored (isp : Nat) :
    ¬ IgnoresUnknown behind o engine m sel isp ∧ ¬ NextTimeIgnores sel isp ∧
    (DistributionIgnores behind o sel isp ↔ sel.Maintains isp) ∧
    (GuidanceIgnores engine m sel isp ↔ sel.Maintains isp) ∧
    (¬ sel.Maintains isp → ∀ (allocator : Allocator) (manager : UpdateManager) (now : Int)
      (task : Task), manager.due now = some task → task.type = .guidance → task.isp = isp →
      manager.runTask allocator now (taskOutcome behind o engine m sel isp now) = none) := by
  have hnext := not_nextTime_ignores sel isp
  refine ⟨fun h => hnext h.nextTime, hnext, distribution_ignores_iff behind o sel isp,
    guidance_ignores_iff engine m sel isp, ?_⟩
  intro hout allocator manager now task hdue htype _
  exact UpdateManager.runTask_throws hdue ⟨htype, updatePeerDistribution_ne behind o sel isp,
    taskOutcome_out behind o engine m sel hout now⟩

/-- Addresses that count up, and an Optimization Engine that answers. -/
def sampleEngine : Engine Nat where
  sys := ⟨UpdateManager.sampleAllocator.alloc, UpdateManager.sampleAllocator.fresh, true⟩
  compute _ _ := .done

/-- A selection manager that is set up with ISP 1; then ISP 2 is added to the `ISPManager`. -/
theorem added_isp_not_ignored :
    let o := bareObjects.addISP 0 "one" 1
    ¬ IgnoresUnknown (fun _ _ _ => false) (o.addISP 0 "two" 2) sampleEngine {}
      (PGMSelectionManager.setISPManager o {} 0).2 2 := by
  intro o h
  have hout : ¬ (PGMSelectionManager.setISPManager o {} 0).2.Maintains 2 := by
    unfold PGMSelectionManager.Maintains
    decide +kernel
  exact updatePeerDistribution_ne _ _ _ _ (h.distribution.1.2 hout)

end Task

end Alto.Selection
