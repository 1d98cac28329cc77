import Alto.Portal.AdminAction
import Alto.Server.JobQueue

/-!
# Admin transactions and view updates

`AdminState` (`portal/server/src/admin/admin_state.cpp`), `init_state`
(`portal/server/src/state.cpp`) and `ViewUpdateJob` (`portal/server/src/jobs/view_update_job.cpp`)
on the whole server. An operation gives a value or an `admin_error` together with the new state, and
has no result (`none`) where the code is undefined. Random numbers and clock readings are arguments;
times are in microseconds.
-/

namespace Alto

open Lib

/-- `ViewUpdateJob`. -/
structure ViewUpdateJob where
  deadline : Nat
  name : String
  deriving DecidableEq

/-- `AdminState`: the token, the open transaction and the two change logs. -/
structure AdminState where
  token : Nat
  txn : Option Txn
  unappliedChanges : List Action
  appliedChanges : List Action

/-- `INVALID_TOKEN`. -/
def invalidToken : Nat := 0

/-- The state after `clear_txn_state`. -/
def AdminState.clear : AdminState := ⟨invalidToken, none, [], []⟩

/-- The global variables of the server: all objects, `GLOBAL_STATE`, `ADMIN_STATE` and the queue of
`JOB_QUEUE`. -/
structure Server where
  heap : Heap Payload
  globalState : Nat
  admin : AdminState
  jobs : List ViewUpdateJob

namespace Server

/-! ## Locks -/

/-- Release write locks: `LocalObject::end_write`. -/
def endWrite (h : Heap Payload) (locks : StdSet Nat) : Heap Payload :=
  locks.toList.foldl (fun h a => h.modify a Obj.resetFired) h

/-- `AdminState::clear_txn_state`. -/
def clearTxnState (s : Server) (w : Work Payload) : Server :=
  { s with heap := endWrite w.heap w.txn.writeLocks, admin := .clear }

/-- A transaction on `GLOBAL_STATE` itself, for the code that locks the objects as it goes. -/
def live (s : Server) : Work Payload := ⟨s.heap, .directWrite, s.globalState, ∅, {s.globalState}⟩

/-- Run a program on `GLOBAL_STATE` and release its locks. -/
def runLive (env : Env) {α : Type} (s : Server) (prog : Prog Payload α) : Option (α × Server) :=
  match prog.exec env.copying s.live with
  | (.ok x, w) => some (x, { s with heap := endWrite w.heap w.txn.writeLocks })
  | _ => none

/-! ## Updates of the global state -/

/-- The child object at an index of the object at a path below `GLOBAL_STATE`. -/
def findLive (s : Server) (p : Path) : Option (Nat × Obj Payload) := s.heap.find s.globalState p

/-- `JobQueue::enqueue` with `ViewUpdateJob::equals`. -/
def enqueue (jobs : List ViewUpdateJob) (job : ViewUpdateJob) : List ViewUpdateJob :=
  JobQueue.enqueue ViewUpdateJob.deadline (fun j k => j.name = k.name) jobs job

/-- `boost::posix_time::seconds`. -/
def seconds (n : Nat) : Nat := n * 1000000

/-- `View::on_update` of the view in slot `i`. -/
def viewOnUpdate (s : Server) (now : Nat) (jobs : List ViewUpdateJob) (i : Nat) :
    List ViewUpdateJob :=
  match s.findLive (viewPath i) with
  | some (_, ⟨.view v, _, _, _⟩) =>
    if v.updateInterval > 0 then enqueue jobs ⟨now + seconds v.updateInterval, v.name⟩ else jobs
  | _ => jobs

/-- The slots of the view registry. -/
def viewSlots (s : Server) : List Nat :=
  match s.findLive viewsPath with
  | some (_, o) => List.range o.children.length
  | none => []

/-- `GLOBAL_STATE->updated()`, with the clock reading for each slot. Only view registries and views
have an `on_update`. -/
def updated (env : Env) (clock : Nat → Nat) (s : Server) : Option Server := do
  let (_, s) ← s.runLive env (.write [] viewsIdx ViewRegistry.onUpdate)
  return { s with jobs := s.viewSlots.foldl (fun jobs i => s.viewOnUpdate (clock i) jobs i) s.jobs }

/-- The objects that `init_state` creates. -/
def initial (env : Env) : Server where
  heap := [⟨.globalState, [some 1, some 2], env.junk 0, false⟩,
    ⟨.netState .empty, [], env.junk 1, false⟩, ⟨.viewRegistry ∅, [], env.junk 2, false⟩]
  globalState := 0
  admin := .clear
  jobs := []

/-- `init_state`. -/
def init (env : Env) (clock : Nat → Nat) : Option Server := updated env clock (initial env)

/-! ## Transactions -/

/-- `AdminState::MAX_TOKEN_GENERATE_ATTEMPTS`. -/
def maxTokenGenerateAttempts : Nat := 3

/-- `AdminState::generate_token`: the first valid token of the random number generator. -/
def generateToken (rng : List Nat) : Except String Nat :=
  match (rng.take maxTokenGenerateAttempts).find? (· ≠ invalidToken) with
  | some token => .ok token
  | none => .error "Failed to generate token: Generated invalid token too many times"

/-- `AdminState::check_txn_token`. -/
def checkTxnToken (s : Server) (token : Nat) : Except String Unit :=
  if s.admin.token = invalidToken then .error "No transaction in progress"
  else if s.admin.token ≠ token then .error "Incorrect token"
  else .ok ()

/-- `AdminState::txn_begin`. -/
def txnBegin (env : Env) (s : Server) (type : TxnType) (rng : List Nat) :
    Option (Except String Nat × Server) :=
  if s.admin.token ≠ invalidToken then some (.error "Transaction already in progress", s)
  else
    match generateToken rng with
    | .error e => some (.error e, s)
    | .ok token => do
      let o ← s.heap[s.globalState]?
      let txn : Txn :=
        { type := type
          newState := s.heap.length
          oldStateLocks := .ofList (s.heap.collect s.globalState) compare
          writeLocks := {s.heap.length} }
      return (.ok token, { s with
        heap := s.heap.modify s.globalState (·.afterCopy env.copying) ++
          [o.copy env.copying s.heap.length]
        admin := { s.admin with token := token, txn := some txn } })

/-- `AdminAction::rollback`, which no action overrides. -/
def rollback (_ : Action) (w : Work Payload) : Bool × Work Payload := (true, w)

/-- `AdminState::rollback_changes`: roll back in reverse order. -/
def rollbackChanges (applied : List Action) (w : Work Payload) : Work Payload :=
  applied.foldr (fun a w => (rollback a w).2) w

/-- `AdminState::process_changes`: whether all changes were applied, the objects and the change
logs. -/
def processChanges (env : Env) : List Action → List Action → Work Payload →
    Option (Bool × Work Payload × List Action × List Action)
  | [], applied, w => some (true, w, [], applied)
  | a :: unapplied, applied, w =>
    match (a.commit env).exec env.copying w with
    | (.ok (some a'), w) => processChanges env unapplied (applied ++ [a']) w
    | (.ok none, w) => some (false, rollbackChanges applied w, a :: unapplied, [])
    | (.error _, w) => some (false, rollbackChanges applied w, a :: unapplied, [])
    | (.undefined, _) => none

/-- `AdminState::txn_apply`: the action, or `none` for the empty pointer. -/
def txnApply (env : Env) (s : Server) (token : Nat) (action : Action) :
    Option (Except String (Option Action) × Server) :=
  match s.checkTxnToken token with
  | .error e => some (.error e, s)
  | .ok () => do
    let txn ← s.admin.txn
    let unapplied := s.admin.unappliedChanges ++ [action]
    match txn.type with
    | .directWrite =>
      return (.ok (some action), { s with admin := { s.admin with unappliedChanges := unapplied } })
    | .copyOnWrite =>
      match ← processChanges env unapplied s.admin.appliedChanges ⟨s.heap, txn⟩ with
      | (false, w, _, _) => return (.ok none, s.clearTxnState w)
      | (true, w, unapplied, applied) =>
        return (.ok applied.getLast?, { s with
          heap := w.heap
          admin := ⟨s.admin.token, some w.txn, unapplied, []⟩ })

/-- `GlobalState::apply` under an upgraded lock. -/
def applyState (h : Heap Payload) (globalState newState : Nat) : Heap Payload :=
  h.modify globalState fun o =>
    (((o.resetFired.setChild netIdx (h.links newState netIdx)).setChild viewsIdx
      (h.links newState viewsIdx)).changed).resetFired

/-- `AdminState::txn_commit`. -/
def txnCommit (env : Env) (clock : Nat → Nat) (s : Server) (token : Nat) :
    Option (Except String Bool × Server) :=
  match s.checkTxnToken token with
  | .error e => some (.error e, s)
  | .ok () => do
    let txn ← s.admin.txn
    match ← processChanges env s.admin.unappliedChanges s.admin.appliedChanges ⟨s.heap, txn⟩ with
    | (false, w, _, _) => return (.ok false, s.clearTxnState w)
    | (true, w, _, _) => do
      let s ← updated env clock
        (s.clearTxnState { w with heap := applyState w.heap s.globalState w.txn.newState })
      return (.ok true, s)

/-- `AdminState::txn_rollback`. The monitor thread of a transaction calls it too. -/
def txnRollback (s : Server) (token : Nat) :
    Option (Except String Unit × Server) :=
  match s.checkTxnToken token with
  | .error e => some (.error e, s)
  | .ok () => do
    let txn ← s.admin.txn
    return (.ok (), s.clearTxnState ⟨s.heap, txn⟩)

/-- `txn_apply` for one action after the other, until one fails. -/
def applyAll (env : Env) (token : Nat) : List Action → Server → Option (Bool × Server)
  | [], s => some (true, s)
  | a :: actions, s => do
    match ← s.txnApply env token a with
    | (.ok (some _), s) => applyAll env token actions s
    | (_, s) => return (false, s)

/-- A whole transaction, as a client of the admin protocol runs it. An action that fails ends it
before the commit. -/
def transact (env : Env) (clock : Nat → Nat) (s : Server) (type : TxnType) (rng : List Nat)
    (actions : List Action) : Option (Except String Bool × Server) := do
  match ← s.txnBegin env type rng with
  | (.error e, s) => return (.error e, s)
  | (.ok token, s) =>
    match ← applyAll env token actions s with
    | (false, s) => return (.ok false, s)
    | (true, s) => s.txnCommit env clock token

/-! ## View update jobs -/

/-- `ViewUpdateJob::run` up to the rescheduling: the interval, or nothing if there is no such
view. -/
def runJob (env : Env) (name : String) : Prog Payload (Option Nat) := do
  Prog.write [] viewsIdx (.ret ())
  Prog.read [] netIdx (.ret ())
  match ← ViewRegistry.get name with
  | none => return none
  | some i => do
    Prog.write viewsPath i (.ret ())
    for c in [ViewChild.aggregation, .prefixes, .intraRouting, .linkPDistances] do
      Prog.read (viewPath i) c.idx (.ret ())
    return some (← doUpdate env i)

/-- A worker takes the first job, runs it and schedules the next one at the time `done`. -/
def executeJob (env : Env) (s : Server) (now done : Nat) : Option Server := do
  let (job, jobs) ← JobQueue.dequeue ViewUpdateJob.deadline now s.jobs
  let (interval, s) ← { s with jobs := jobs }.runLive env (runJob env job.name)
  match interval with
  | some (n + 1) =>
    return { s with jobs := enqueue s.jobs ⟨done + seconds (n + 1), job.name⟩ }
  | _ => return s

end Server

end Alto
