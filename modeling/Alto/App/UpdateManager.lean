import Alto.Common.HeapWithDelete
import Alto.Lib.StdMap

/-!
# The update manager

`P4PUpdateManager` (`common/cpp/src/lib/update_manager.cpp`). ISPs and selection managers are
pointers to objects of other classes; what their methods return is an argument of the functions that
call them. A task is allocated by `new`, so it has an address, and `m_selmgr_tasks` is ordered by
these addresses. A function answers `none` where the source leaves it by an exception.
-/

namespace Alto.App

open Common Lib

/-- `P4PUpdateManager::TaskType`. -/
inductive TaskType where
  | pidMap
  | pDistance
  | guidance
deriving DecidableEq, Repr

/-- The value of the enumerator. -/
def TaskType.toNat : TaskType → Nat
  | pidMap => 0
  | pDistance => 1
  | guidance => 2

/-- `P4PUpdateManager::Task`, with the address of the object. `selMgr` is `none` for `NULL`. -/
structure Task where
  addr : Nat
  exectime : Int
  type : TaskType
  isp : Nat
  selMgr : Option Nat
deriving DecidableEq, Repr

instance : Inhabited Task := ⟨⟨0, 0, .pidMap, 0, none⟩⟩

namespace Task

/-- The selection manager as a pointer that can be compared. -/
def selMgrPtr (task : Task) : Nat :=
  match task.selMgr with
  | none => 0
  | some selMgr => selMgr + 1

/-- `Task::operator<`, which does not look at the execution time. -/
def less (lhs rhs : Task) : Bool :=
  if lhs.type.toNat < rhs.type.toNat then true
  else if lhs.type.toNat > rhs.type.toNat then false
  else if lhs.isp < rhs.isp then true
  else if lhs.isp > rhs.isp then false
  else if lhs.selMgrPtr < rhs.selMgrPtr then true
  else if lhs.selMgrPtr > rhs.selMgrPtr then false
  else false

/-- `TaskPtrPriorityComparator`. -/
def earlier (t₁ t₂ : Task) : Bool :=
  decide (t₁.exectime < t₂.exectime)

/-- What tells tasks apart. -/
def key (task : Task) : TaskType × Nat × Option Nat :=
  (task.type, task.isp, task.selMgr)

end Task

/-- The key of a task: its type, its ISP and its selection manager. -/
abbrev Key := TaskType × Nat × Option Nat

/-- What has been asked for and done, the latest first. -/
inductive Event where
  | requested (key : Key) (exectime : Int)
  | executed (key : Key)
  | removed (key : Key)
deriving DecidableEq, Repr

/-- The memory allocator: an address that is not in use. -/
structure Allocator where
  alloc : List Nat → Nat
  fresh : ∀ live, alloc live ∉ live

/-- `P4PUpdateManager`. `live` holds the addresses of the tasks that have not been deleted, and
`history` only records; no function reads it. -/
structure UpdateManager where
  ispMgr : Bool
  selectionMgrs : StdSet Nat
  tasks : MaxHeapWithDelete Task
  selmgrTasks : StdMap Nat (StdMap Nat Task)
  live : List Nat
  history : List Event

namespace UpdateManager

/-- The default constructor. -/
def init : UpdateManager where
  ispMgr := false
  selectionMgrs := ∅
  tasks := default
  selmgrTasks := ∅
  live := []
  history := []

/-- `P4PUpdateManager::addTask`. -/
def addTask (m : UpdateManager) (task : Task) : Option UpdateManager :=
  match MaxHeapWithDelete.push Task.less Task.earlier m.tasks task with
  | none => none
  | some tasks =>
    match task.selMgr with
    | none => some { m with tasks }
    | some selMgr =>
      let indexed := (m.selmgrTasks[selMgr]?.getD ∅).insertIfNew task.addr task
      some { m with tasks, selmgrTasks := m.selmgrTasks.insert selMgr indexed }

/-- The end of `P4PUpdateManager::removeTask`: the task leaves `m_selmgr_tasks` and is deleted. -/
def deleteTask (m : UpdateManager) (task : Task) : UpdateManager :=
  match task.selMgr with
  | none => { m with live := m.live.erase task.addr }
  | some selMgr =>
    let indexed := (m.selmgrTasks[selMgr]?.getD ∅).erase task.addr
    { m with
      selmgrTasks := m.selmgrTasks.insert selMgr indexed
      live := m.live.erase task.addr }

/-- `P4PUpdateManager::removeTask`. -/
def removeTask (m : UpdateManager) (task : Task) (removeFromQueue : Bool) :
    Option UpdateManager :=
  if removeFromQueue then
    match MaxHeapWithDelete.erase Task.less Task.earlier m.tasks task with
    | none => none
    | some tasks => some (deleteTask { m with tasks } task)
  else some (m.deleteTask task)

section Enqueue

variable (allocator : Allocator)

/-- `P4PUpdateManager::enqueueTask`. -/
def enqueueTask (m : UpdateManager) (exectime : Int) (type : TaskType) (isp : Nat)
    (selMgr : Option Nat) : Option UpdateManager :=
  let addr := allocator.alloc m.live
  let task : Task := ⟨addr, exectime, type, isp, selMgr⟩
  let m := { m with
    live := addr :: m.live
    history := .requested task.key exectime :: m.history }
  match m.tasks.findValue task with
  | none => m.addTask task
  | some existing =>
    if existing.exectime ≤ task.exectime then some { m with live := m.live.erase addr }
    else
      match m.removeTask existing true with
      | none => none
      | some m => m.addTask task

/-- A loop that enqueues the same kind of task for several ISPs or selection managers. -/
def enqueueAll (type : TaskType) : List (Nat × Option Nat) → UpdateManager → Option UpdateManager
  | [], m => some m
  | (isp, selMgr) :: rest, m =>
    match m.enqueueTask allocator 0 type isp selMgr with
    | none => none
    | some m => enqueueAll type rest m

/-- `P4PUpdateManager::setISPManager`, with the list that `listISPs` returns. -/
def setISPManager (m : UpdateManager) (isps : List Nat) : Option UpdateManager :=
  if m.ispMgr then some m
  else enqueueAll allocator .pidMap (isps.map fun isp => (isp, none)) { m with ispMgr := true }

/-- `P4PUpdateManager::addSelectionManager`, with the list that `listISPs` returns. -/
def addSelectionManager (m : UpdateManager) (selMgr : Nat) (isps : List Nat) :
    Option UpdateManager :=
  if !m.ispMgr then some m
  else if selMgr ∈ m.selectionMgrs then some m
  else
    enqueueAll allocator .guidance (isps.map fun isp => (isp, some selMgr))
      { m with selectionMgrs := m.selectionMgrs.insert selMgr }

/-- The loop of `removeSelectionManager` over the tasks of the manager. -/
def removeTasks : List Task → UpdateManager → Option UpdateManager
  | [], m => some m
  | task :: tasks, m =>
    match m.removeTask task true with
    | none => none
    | some m => removeTasks tasks { m with history := .removed task.key :: m.history }

/-- `P4PUpdateManager::removeSelectionManager`. -/
def removeSelectionManager (m : UpdateManager) (selMgr : Nat) : Option UpdateManager :=
  if selMgr ∈ m.selectionMgrs then
    match m.selmgrTasks[selMgr]? with
    | none => some { m with selectionMgrs := m.selectionMgrs.erase selMgr }
    | some indexed =>
      match removeTasks (indexed.toList.map (·.2)) m with
      | none => none
      | some m => some { m with
          selmgrTasks := m.selmgrTasks.erase selMgr
          selectionMgrs := m.selectionMgrs.erase selMgr }
  else some m

/-- What the methods return that a task calls: `loadP4PInfo` with the time-to-live read after it,
`updatePeerDistribution`, `computeGuidance` (`none` if it throws) and `getNextComputeTime`, and what
`time` returns. -/
structure Outcome where
  now : Int
  loadP4PInfo : Int
  ttl : Int
  updatePeerDistribution : Int
  computeGuidance : Option Int
  nextComputeTime : Int
deriving Repr

/-- `ERR_INVALID_ISP`. -/
def errInvalidISP : Int := -102

/-- `PGMSelectionManager::TIME_INVALID`. -/
def timeInvalid : Int := -1

/-- `P4PUpdateManager::updatePIDMap`. -/
def updatePIDMap (m : UpdateManager) (outcome : Outcome) (isp : Nat) : Option UpdateManager :=
  if outcome.loadP4PInfo ≠ 0 then
    m.enqueueTask allocator (outcome.now + 15 * 60) .pidMap isp none
  else
    match m.enqueueTask allocator (outcome.now + outcome.ttl) .pidMap isp none with
    | none => none
    | some m => m.enqueueTask allocator 0 .pDistance isp none

/-- `P4PUpdateManager::updatePDistanceMap`. -/
def updatePDistanceMap (m : UpdateManager) (outcome : Outcome) (isp : Nat) :
    Option UpdateManager :=
  if outcome.loadP4PInfo ≠ 0 then
    m.enqueueTask allocator (outcome.now + 15 + 60) .pDistance isp none
  else
    match m.enqueueTask allocator (outcome.now + outcome.ttl) .pDistance isp none with
    | none => none
    | some m =>
      enqueueAll allocator .guidance
        (m.selectionMgrs.toList.map fun selMgr => (isp, some selMgr)) m

/-- `P4PUpdateManager::updateGuidance`. -/
def updateGuidance (m : UpdateManager) (outcome : Outcome) (isp : Nat) (selMgr : Option Nat) :
    Option UpdateManager :=
  if outcome.updatePeerDistribution = errInvalidISP then some m
  else
    match outcome.computeGuidance with
    | none => none
    | some rc =>
      if rc = errInvalidISP then some m
      else if outcome.nextComputeTime = timeInvalid then some m
      else m.enqueueTask allocator outcome.nextComputeTime .guidance isp selMgr

/-- `P4PUpdateManager::executeTask`. -/
def executeTask (m : UpdateManager) (outcome : Outcome) (task : Task) : Option UpdateManager :=
  match task.type with
  | .pidMap => m.updatePIDMap allocator outcome task.isp
  | .pDistance => m.updatePDistanceMap allocator outcome task.isp
  | .guidance => m.updateGuidance allocator outcome task.isp task.selMgr

/-- The task that the loop of `run` takes next, if it is due. -/
def due (m : UpdateManager) (now : Int) : Option Task :=
  if !m.ispMgr then none
  else if m.tasks.size = 0 then none
  else if now < m.tasks.top.exectime then none
  else some m.tasks.top

/-- One round of the inner loop of `P4PUpdateManager::run`: `none` also if no task is due. -/
def runTask (m : UpdateManager) (now : Int) (outcome : Outcome) : Option UpdateManager :=
  match m.due now with
  | none => none
  | some task =>
    match MaxHeapWithDelete.pop Task.less Task.earlier m.tasks with
    | none => none
    | some tasks =>
      let m := { m with tasks, history := .executed task.key :: m.history }
      match m.executeTask allocator outcome task with
      | none => none
      | some m => m.removeTask task false

/-- The steps of the update manager. -/
inductive Step where
  | setISPManager (isps : List Nat)
  | addSelectionManager (selMgr : Nat) (isps : List Nat)
  | removeSelectionManager (selMgr : Nat)
  | run (now : Int) (outcome : Outcome)

/-- One step, from one point at which `m_mutex` is free to the next. -/
def step (m : UpdateManager) : Step → Option UpdateManager
  | .setISPManager isps => m.setISPManager allocator isps
  | .addSelectionManager selMgr isps => m.addSelectionManager allocator selMgr isps
  | .removeSelectionManager selMgr => m.removeSelectionManager selMgr
  | .run now outcome => m.runTask allocator now outcome

end Enqueue

end UpdateManager

end Alto.App
