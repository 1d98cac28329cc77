import Mathlib

/-!
# The job queue

`JobQueue` (`common-server/src/include/p4pserver/job_queue.h`,
`common-server/src/lib/job_queue.cpp`). The queue is a `std::set` that compares jobs by their
deadlines only, so it never holds two jobs with the same deadline.
-/

namespace Alto.JobQueue

variable {J : Type} (deadline : J → Nat) (equals : J → J → Bool)

/-- `queue_.insert(job)`. -/
def insert (queue : List J) (job : J) : List J :=
  match queue with
  | [] => [job]
  | j :: queue =>
    if deadline job < deadline j then job :: j :: queue
    else if deadline j < deadline job then j :: insert queue job
    else j :: queue

/-- `JobQueue::enqueue`: an equal job that comes later is replaced. -/
def enqueue (queue : List J) (job : J) : List J :=
  match queue.find? (equals job) with
  | none => insert deadline queue job
  | some j =>
    if deadline job < deadline j then
      insert deadline (queue.eraseP (equals job)) job
    else queue

/-- `JobQueue::dequeue` at a time when the first job is due. -/
def dequeue (now : Nat) : List J → Option (J × List J)
  | [] => none
  | j :: queue => if now < deadline j then none else some (j, queue)

end Alto.JobQueue
