import Alto.Lib.Threads

/-!
# The shared mutex on Win32

`SharedMutex` of `common/cpp/src/lib/mutex.cpp` for `USE_WIN32THREADS`. Each critical section is one
step of a thread, and so is each call of the Win32 functions outside of them. Between two steps any
other thread can run.

`hReadyToRead_` is a manual-reset event: it lets all threads go that wait when it is set, and those
that come to wait until it is reset. `hReadyToWrite_` is a semaphore with the maximum count one.
-/

namespace Alto.Win32

open Lib

/-- Where a thread is. -/
inductive Phase where
  /-- Outside the functions of the mutex, without a lock. -/
  | idle
  /-- In `shared_lock`, between `LeaveCriticalSection` and `WaitForSingleObject`. -/
  | beforeWait
  /-- In `shared_lock`, blocked in `WaitForSingleObject`. -/
  | blocked
  /-- In `shared_lock`, between `WaitForSingleObject` and `EnterCriticalSection`. -/
  | woken
  /-- In `shared_lock`, with the lock and `fNotifyReaders`, before `SetEvent`. -/
  | sharedNotify
  /-- In a shared section. -/
  | reading
  /-- In `exclusive_lock`, before or in `WaitForSingleObject`. -/
  | waitWrite
  /-- In an exclusive section. -/
  | writing
  /-- In `exclusive_unlock` with `fNotifyWriter`, before `ReleaseSemaphore`. -/
  | notifyWriter
  /-- In `exclusive_unlock` with `fNotifyReaders`, before `SetEvent`. -/
  | notifyReaders
deriving DecidableEq, Repr

/-- What a thread does next. -/
inductive Call where
  | sharedLock
  | sharedUnlock
  | exclusiveLock
  | exclusiveUnlock
  /-- The next step in the function that the thread is in. -/
  | resume
deriving DecidableEq, Repr

/-- `HIWORD` of a `DWORD`. -/
def hiword (x : Nat) : Nat := x / 2 ^ 16

/-- `MAKELONG`. -/
def makelong (low high : Nat) : Nat := low % 2 ^ 16 + 2 ^ 16 * (high % 2 ^ 16)

/-- `++x` on a `DWORD`. -/
def increment (x : Nat) : Nat := if x = 2 ^ 32 - 1 then 0 else x + 1

/-- `--x` on a `DWORD`. -/
def decrement (x : Nat) : Nat := if x = 0 then 2 ^ 32 - 1 else x - 1

/-- `SharedMutex` and the threads. -/
structure SharedMutex (T : Type) where
  numWritersWaiting : Int := 0
  numReadersWaiting : Int := 0
  activeWriterReaders : Nat := 0
  hReadyToRead : Bool := false
  hReadyToWrite : Nat := 0
  phase : T → Phase := fun _ => .idle

namespace SharedMutex

variable {T : Type}

/-- `SetEvent(hReadyToRead_)`. -/
def setEvent (s : SharedMutex T) : SharedMutex T :=
  { s with hReadyToRead := true, phase := wake s.phase .blocked .woken }

section

variable (s : SharedMutex T)

@[simp] theorem setEvent_numWritersWaiting :
    s.setEvent.numWritersWaiting = s.numWritersWaiting := rfl

@[simp] theorem setEvent_numReadersWaiting :
    s.setEvent.numReadersWaiting = s.numReadersWaiting := rfl

@[simp] theorem setEvent_activeWriterReaders :
    s.setEvent.activeWriterReaders = s.activeWriterReaders := rfl

@[simp] theorem setEvent_hReadyToRead : s.setEvent.hReadyToRead = true := rfl

@[simp] theorem setEvent_hReadyToWrite : s.setEvent.hReadyToWrite = s.hReadyToWrite := rfl

end

/-- `ResetEvent(hReadyToRead_)`. -/
def resetEvent (s : SharedMutex T) : SharedMutex T := { s with hReadyToRead := false }

/-- `ReleaseSemaphore(hReadyToWrite_, 1, NULL)`, which fails at the maximum count. -/
def releaseSemaphore (s : SharedMutex T) : SharedMutex T :=
  if s.hReadyToWrite < 1 then { s with hReadyToWrite := s.hReadyToWrite + 1 } else s

variable [DecidableEq T]

/-- A thread comes to another phase. -/
def goto (s : SharedMutex T) (t : T) (p : Phase) : SharedMutex T :=
  { s with phase := Function.update s.phase t p }

section

variable (s : SharedMutex T) (t : T) (p : Phase)

@[simp] theorem goto_numWritersWaiting : (s.goto t p).numWritersWaiting = s.numWritersWaiting := rfl

@[simp] theorem goto_numReadersWaiting : (s.goto t p).numReadersWaiting = s.numReadersWaiting := rfl

@[simp] theorem goto_activeWriterReaders :
    (s.goto t p).activeWriterReaders = s.activeWriterReaders := rfl

@[simp] theorem goto_hReadyToRead : (s.goto t p).hReadyToRead = s.hReadyToRead := rfl

@[simp] theorem goto_hReadyToWrite : (s.goto t p).hReadyToWrite = s.hReadyToWrite := rfl

end

/-- The first critical section of `shared_lock`. -/
def sharedLock (s : SharedMutex T) (t : T) : SharedMutex T :=
  if 0 < s.numWritersWaiting ∨ 0 < hiword s.activeWriterReaders then
    { s with numReadersWaiting := s.numReadersWaiting + 1 }.resetEvent.goto t .beforeWait
  else
    let s := { s with activeWriterReaders := increment s.activeWriterReaders }
    if s.activeWriterReaders = 1 ∧ s.numReadersWaiting ≠ 0 then s.goto t .sharedNotify
    else s.goto t .reading

/-- The critical section behind the wait in the loop of `shared_lock`, and the one that begins the
next round. -/
def sharedLockLoop (s : SharedMutex T) (t : T) : SharedMutex T :=
  if s.numWritersWaiting = 0 ∧ hiword s.activeWriterReaders = 0 then
    { s with
      numReadersWaiting := s.numReadersWaiting - 1
      activeWriterReaders := increment s.activeWriterReaders }.goto t .reading
  else s.resetEvent.goto t .beforeWait

/-- `SharedMutex::shared_unlock`. -/
def sharedUnlock (s : SharedMutex T) (t : T) : SharedMutex T :=
  let s := { s with activeWriterReaders := decrement s.activeWriterReaders }
  let s := if s.activeWriterReaders = 0 then s.resetEvent else s
  if s.numWritersWaiting ≠ 0 ∧ s.activeWriterReaders = 0 then
    { s with
      numWritersWaiting := s.numWritersWaiting - 1
      activeWriterReaders := makelong 0 1 }.releaseSemaphore.goto t .idle
  else s.goto t .idle

/-- The critical section of `exclusive_lock`. -/
def exclusiveLock (s : SharedMutex T) (t : T) : SharedMutex T :=
  if s.activeWriterReaders ≠ 0 then
    { s with numWritersWaiting := s.numWritersWaiting + 1 }.goto t .waitWrite
  else { s with activeWriterReaders := makelong 0 1 }.goto t .writing

/-- The critical section of `exclusive_unlock`. -/
def exclusiveUnlock (s : SharedMutex T) (t : T) : SharedMutex T :=
  if s.numWritersWaiting ≠ 0 then
    { s with numWritersWaiting := s.numWritersWaiting - 1 }.goto t .notifyWriter
  else
    let s := { s with activeWriterReaders := 0 }
    if s.numReadersWaiting ≠ 0 then s.goto t .notifyReaders else s.goto t .idle

/-- A step of a thread; `none` if it has to wait or is elsewhere. -/
def step (s : SharedMutex T) : T × Call → Option (SharedMutex T)
  | (t, call) =>
    match s.phase t, call with
    | .idle, .sharedLock => some (s.sharedLock t)
    | .beforeWait, .resume => some (s.goto t (if s.hReadyToRead then .woken else .blocked))
    | .woken, .resume => some (s.sharedLockLoop t)
    | .sharedNotify, .resume => some (s.setEvent.goto t .reading)
    | .reading, .sharedUnlock => some (s.sharedUnlock t)
    | .idle, .exclusiveLock => some (s.exclusiveLock t)
    | .waitWrite, .resume =>
      if 0 < s.hReadyToWrite then
        some ({ s with hReadyToWrite := s.hReadyToWrite - 1 }.goto t .writing)
      else none
    | .writing, .exclusiveUnlock => some (s.exclusiveUnlock t)
    | .notifyWriter, .resume => some (s.releaseSemaphore.goto t .idle)
    | .notifyReaders, .resume => some (s.setEvent.goto t .idle)
    | _, _ => none

end SharedMutex

end Alto.Win32
