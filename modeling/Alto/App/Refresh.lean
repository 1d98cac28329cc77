import Alto.App.UpdateManager

/-!
# The update manager with its ISPs and selection managers

The objects that `P4PUpdateManager` keeps up to date: the ISPs of the `ISPManager`
(`common/cpp/src/lib/isp_manager.cpp`), and the selection managers with their guidance matrices
(`common/cpp/src/lib/pgm_selection_manager.cpp`, `p4p_selection_manager.cpp` and
`peering_guidance_matrix.cpp`). What the servers answer is an argument of each step.
-/

namespace Alto.App

open Common Lib

/-- The members of `PeeringGuidanceMatrix` that say when it is computed again. -/
structure PeeringGuidanceMatrix where
  lastComputed : Int
  useOptEngineTTL : Bool
  optEngineTTL : Int
  recomputeInterval : Int
deriving DecidableEq, Repr

/-- `PeeringGuidanceMatrix::getNextComputeTime`. -/
def PeeringGuidanceMatrix.getNextComputeTime (matrix : PeeringGuidanceMatrix) : Int :=
  if matrix.lastComputed = 0 then 0
  else if matrix.useOptEngineTTL then matrix.lastComputed + matrix.optEngineTTL
  else matrix.lastComputed + matrix.recomputeInterval

/-- `PGMSelectionManager`: `m_guidance_initialized`, the ISPs of `m_isp_peers`, and `m_guidance`, where
`none` stands for a matrix that does not exist yet. -/
structure PGMSelectionManager where
  initialized : Bool := false
  ispPeers : StdSet Nat
  guidance : StdMap Nat (Option PeeringGuidanceMatrix)

namespace PGMSelectionManager

/-- The default constructor. -/
def init : PGMSelectionManager where
  ispPeers := ∅
  guidance := ∅

/-- `PGMSelectionManager::setISPManager` of a new selection manager. -/
def setISPManager (isps : List Nat) : PGMSelectionManager where
  ispPeers := isps.foldl (fun s isp => s.insert isp) ∅
  guidance := isps.foldl (fun guidance isp => guidance.insert isp none) ∅

/-- `P4PSelectionManager::updatePeerDistribution`, which converts the error code to `bool`. -/
def updatePeerDistribution (selMgr : PGMSelectionManager) (isp : Nat) : Int :=
  if isp ∈ selMgr.ispPeers then 0 else 1

/-- `PGMSelectionManager::computeGuidance`, with the matrix and the code that the computation ends
with; the code is `none` if the matrix manager throws. An ISP without an entry is an exception, too. -/
def computeGuidance (selMgr : PGMSelectionManager) (isp : Nat) (matrix : PeeringGuidanceMatrix)
    (rc : Option Int) : Option (PGMSelectionManager × Int) :=
  if isp ∈ selMgr.guidance then
    rc.map fun rc =>
      ({ selMgr with guidance := selMgr.guidance.insert isp (some matrix) }, rc)
  else none

/-- `PGMSelectionManager::getNextComputeTime`. The test is the wrong way round: an entry that is
found is answered with `TIME_INVALID`, and otherwise the end of the map is read, which is `none`
here. -/
def getNextComputeTime (selMgr : PGMSelectionManager) (isp : Nat) : Option Int :=
  if isp ∈ selMgr.guidance then some UpdateManager.timeInvalid else none

end PGMSelectionManager

/-- What the outside answers while a task is executed: the time, the result of `loadP4PInfo` and the
time-to-live, and the matrix and result of a computation, which is `none` for an exception. -/
structure Answer where
  now : Int
  loadP4PInfo : Int
  ttl : Int
  matrix : PeeringGuidanceMatrix
  compute : Option Int
deriving Repr

/-- What the outside answers while guidance is computed: for each ISP the matrix and the result of the
computation. -/
abbrev Answers := Nat → PeeringGuidanceMatrix × Option Int

/-- The update manager and what it refreshes. `loaded` and `computed` only record which PID maps
have been loaded and which guidance has been computed. -/
structure System where
  isps : StdSet Nat
  selMgrs : Nat → PGMSelectionManager
  manager : UpdateManager
  loaded : List Nat
  computed : List (Nat × Nat)

namespace System

/-- Before anything is set up. -/
def init : System where
  isps := ∅
  selMgrs := fun _ => .init
  manager := .init
  loaded := []
  computed := []

/-- The steps: those of the `ISPManager`, of the application that sets up selection managers and
calls their public methods, and of the update manager. -/
inductive Step where
  | addISP (isp : Nat)
  | removeISP (isp : Nat)
  | newSelectionManager (selMgr : Nat)
  | initGuidance (selMgr : Nat) (answers : Answers)
  | computeGuidance (selMgr isp : Nat) (answers : Answers)
  | computeAllGuidance (selMgr : Nat) (answers : Answers)
  | setISPManager
  | addSelectionManager (selMgr : Nat)
  | removeSelectionManager (selMgr : Nat)
  | run (now : Int) (answer : Answer)

/-- `PGMSelectionManager::computeGuidance(isp)`. An exception changes nothing. -/
def computeGuidance (answers : Answers) (selMgr : Nat) (sys : System) (isp : Nat) :
    Option System :=
  ((sys.selMgrs selMgr).computeGuidance isp (answers isp).1 (answers isp).2).map
    fun (selMgr', rc) =>
      { sys with
        selMgrs := Function.update sys.selMgrs selMgr selMgr'
        computed := if rc = 0 then (isp, selMgr) :: sys.computed else sys.computed }

/-- The loop of `PGMSelectionManager::computeGuidance()`, which an exception leaves. -/
def computeEach (answers : Answers) (selMgr : Nat) : List Nat → System → System
  | [], sys => sys
  | isp :: isps, sys =>
    match sys.computeGuidance answers selMgr isp with
    | none => sys
    | some sys => computeEach answers selMgr isps sys

/-- `PGMSelectionManager::computeGuidance()`. -/
def computeAllGuidance (answers : Answers) (selMgr : Nat) (sys : System) : System :=
  computeEach answers selMgr (sys.selMgrs selMgr).guidance.keys sys

/-- `PGMSelectionManager::initGuidance`. -/
def initGuidance (answers : Answers) (selMgr : Nat) (sys : System) : System :=
  if (sys.selMgrs selMgr).initialized then sys
  else computeAllGuidance answers selMgr { sys with
    selMgrs := Function.update sys.selMgrs selMgr { sys.selMgrs selMgr with initialized := true } }

/-- The selection manager of a task after `computeGuidance`, and the code. -/
def compute (sys : System) (task : Task) (answer : Answer) : Option (PGMSelectionManager × Int) :=
  match task.selMgr with
  | none => none
  | some selMgr => (sys.selMgrs selMgr).computeGuidance task.isp answer.matrix answer.compute

/-- What the methods return that the task calls. `getNextComputeTime` is called only after
`computeGuidance` has found the entry of the ISP. -/
def outcome (sys : System) (task : Task) (answer : Answer) : UpdateManager.Outcome where
  now := answer.now
  loadP4PInfo := answer.loadP4PInfo
  ttl := answer.ttl
  updatePeerDistribution :=
    match task.selMgr with
    | none => 0
    | some selMgr => (sys.selMgrs selMgr).updatePeerDistribution task.isp
  computeGuidance := (sys.compute task answer).map (·.2)
  nextComputeTime :=
    match sys.compute task answer with
    | none => 0
    | some (selMgr, _) => (selMgr.getNextComputeTime task.isp).getD 0

/-- What a task that has been executed leaves in the objects around the update manager. -/
def executed (sys : System) (task : Task) (answer : Answer) : System :=
  match task.type with
  | .pidMap =>
    if answer.loadP4PInfo = 0 then { sys with loaded := task.isp :: sys.loaded } else sys
  | .pDistance => sys
  | .guidance =>
    match task.selMgr, sys.compute task answer with
    | some selMgr, some (selMgr', rc) =>
      { sys with
        selMgrs := Function.update sys.selMgrs selMgr selMgr'
        computed := if rc = 0 then (task.isp, selMgr) :: sys.computed else sys.computed }
    | _, _ => sys

/-- One step. A task of an ISP that has been removed reads freed memory, so there is no such
step. -/
def step (allocator : Allocator) (sys : System) : Step → Option System
  | .addISP isp => some { sys with isps := sys.isps.insert isp }
  | .removeISP isp => some { sys with isps := sys.isps.erase isp }
  | .newSelectionManager selMgr =>
    if selMgr ∈ sys.manager.selectionMgrs then none
    else some { sys with
      selMgrs := Function.update sys.selMgrs selMgr (.setISPManager sys.isps.toList)
      computed := sys.computed.filter (·.2 ≠ selMgr) }
  | .initGuidance selMgr answers => some (sys.initGuidance answers selMgr)
  | .computeGuidance selMgr isp answers => some ((sys.computeGuidance answers selMgr isp).getD sys)
  | .computeAllGuidance selMgr answers => some (sys.computeAllGuidance answers selMgr)
  | .setISPManager =>
    match sys.manager.setISPManager allocator sys.isps.toList with
    | none => none
    | some manager => some { sys with manager }
  | .addSelectionManager selMgr =>
    match sys.manager.addSelectionManager allocator selMgr sys.isps.toList with
    | none => none
    | some manager => some { sys with manager }
  | .removeSelectionManager selMgr =>
    match sys.manager.removeSelectionManager selMgr with
    | none => none
    | some manager => some { sys with manager }
  | .run now answer =>
    match sys.manager.due now with
    | none => none
    | some task =>
      if task.isp ∈ sys.isps then
        match sys.manager.runTask allocator now (sys.outcome task answer) with
        | none => none
        | some manager => some { sys.executed task answer with manager }
      else none

end System

end Alto.App
