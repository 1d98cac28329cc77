import Alto.Server.DistObj

/-!
# Object references of a transaction

The part of `AdminState` that actions work with (`portal/server/src/admin/admin_state.cpp`):
`read_object_ref` and `write_object_ref` hand out the objects below `new_state_`, and an action then
calls getters and setters on them. An action is a program over these calls; it names an object by
its path below `new_state_`, since every reference is obtained by walking down from `root_ref()`.
A call that the code may not make (a null pointer, an object that is not locked) has no result.
-/

namespace Alto

open Lib

/-- `AdminState::TxnType`. -/
inductive TxnType where
  | copyOnWrite
  | directWrite
  deriving DecidableEq

/-- `txn_type_`, `new_state_`, the keys of `old_state_locks_` and the keys of `write_locks_`. -/
structure Txn where
  type : TxnType
  newState : Nat
  oldStateLocks : StdSet Nat
  writeLocks : StdSet Nat
  deriving DecidableEq

/-- The objects together with the transaction that works on them. -/
structure Work (P : Type) where
  heap : Heap P
  txn : Txn

namespace Work

variable {P : Type}

/-- The object at a path below `new_state_`. -/
def find (w : Work P) (p : Path) : Option (Nat × Obj P) := w.heap.find w.txn.newState p

/-- `check_read` and `check_write` on the lock that the transaction holds for an object. -/
def canRead (w : Work P) (a : Nat) : Bool := a ∈ w.txn.writeLocks ∨ a ∈ w.txn.oldStateLocks

def canWrite (w : Work P) (a : Nat) : Bool := a ∈ w.txn.writeLocks

/-- `write_locks_[obj] = new BlockWriteLock(*obj)`, or a new `UpgradedWriteLock`. -/
def lock (w : Work P) (a : Nat) : Work P :=
  ⟨w.heap.modify a Obj.resetFired, { w.txn with writeLocks := w.txn.writeLocks.insert a }⟩

/-- `AdminState::read_object_ref` for the child `i` of the object at `q`. -/
def readObjectRef (w : Work P) (q : Path) (i : Nat) : Option (Work P) := do
  let (parent, _) ← w.find q
  guard (w.canRead parent)
  let (a, _) ← w.find (i :: q)
  if w.canRead a then return w
  return w.lock a

/-- The copy-on-write branch of `AdminState::write_object_ref`: the copy takes the place of the
object among the children of the parent. -/
def copyObject (c : Copying P) (w : Work P) (parent idx a : Nat) (o : Obj P) : Work P :=
  lock ⟨(w.heap.modify a (·.afterCopy c) ++ [o.copy c w.heap.length]).modify parent
    (·.setChild idx (some w.heap.length)), w.txn⟩ w.heap.length

/-- `AdminState::write_object_ref` for the child `i` of the object at `q`. -/
def writeObjectRef (c : Copying P) (w : Work P) (q : Path) (i : Nat) : Option (Work P) := do
  let (parent, po) ← w.find q
  guard (w.canWrite parent)
  let (a, o) ← w.find (i :: q)
  if w.canWrite a then return w
  if a ∉ w.txn.oldStateLocks then return w.lock a
  match w.txn.type with
  | .directWrite => return w.lock a
  | .copyOnWrite => return w.copyObject c parent (← po.findChild a) a o

/-- A getter called on the object at `p`. -/
def load (w : Work P) (p : Path) : Option (Obj P) := do
  let (a, o) ← w.find p
  guard (w.canRead a)
  return o

/-- A setter called on the object at `p`. -/
def store (w : Work P) (p : Path) (x : P) (notify : Bool) : Option (Work P) := do
  let (a, _) ← w.find p
  guard (w.canWrite a)
  return { w with heap := w.heap.modify a (·.store x notify) }

/-- `set_child` called on the object at `p`, with a null pointer or a new object. -/
def setChild (c : Copying P) (w : Work P) (p : Path) (i : Nat) (value : Option (NewObj P)) :
    Option (Work P) := do
  let (a, _) ← w.find p
  guard (w.canWrite a)
  match value with
  | none => return { w with heap := w.heap.modify a (·.setChild i none) }
  | some x =>
    return { w with
      heap := (w.heap ++ Heap.newObjs c w.heap.length x).modify a
        (·.setChild i (some w.heap.length)) }

end Work

/-- What an action returns: a value, an `admin_error`, or nothing that the code defines. -/
inductive Outcome (α : Type) where
  | ok (x : α)
  | error (msg : String)
  | undefined
  deriving DecidableEq

/-- The calls that an action makes. The root is only ever changed by `write_object_ref`. -/
inductive Prog (P α : Type) where
  | ret (x : α)
  | throw (msg : String)
  | undef
  | read (q : Path) (i : Nat) (k : Prog P α)
  | write (q : Path) (i : Nat) (k : Prog P α)
  | load (p : Path) (k : P → Prog P α)
  | slots (p : Path) (k : List Bool → Prog P α)
  | store (q : Path) (i : Nat) (x : P) (notify : Bool) (k : Prog P α)
  | setChild (q : Path) (j : Nat) (i : Nat) (value : Option (NewObj P)) (k : Prog P α)

namespace Prog

variable {P α β : Type}

/-- Sequencing. -/
def bind : Prog P α → (α → Prog P β) → Prog P β
  | ret x, f => f x
  | throw msg, _ => throw msg
  | undef, _ => undef
  | read q i k, f => read q i (k.bind f)
  | write q i k, f => write q i (k.bind f)
  | load p k, f => load p fun x => (k x).bind f
  | slots p k, f => slots p fun s => (k s).bind f
  | store q i x notify k, f => store q i x notify (k.bind f)
  | setChild q j i value k, f => setChild q j i value (k.bind f)

instance : Monad (Prog P) where
  pure := ret
  bind := bind

/-- Run an action on the objects. -/
def exec (c : Copying P) : Prog P α → Work P → Outcome α × Work P
  | ret x, w => (.ok x, w)
  | throw msg, w => (.error msg, w)
  | undef, w => (.undefined, w)
  | read q i k, w =>
    match w.readObjectRef q i with
    | some w => exec c k w
    | none => (.undefined, w)
  | write q i k, w =>
    match w.writeObjectRef c q i with
    | some w => exec c k w
    | none => (.undefined, w)
  | load p k, w =>
    match w.load p with
    | some o => exec c (k o.payload) w
    | none => (.undefined, w)
  | slots p k, w =>
    match w.load p with
    | some o => exec c (k (o.children.map Option.isSome)) w
    | none => (.undefined, w)
  | store q i x notify k, w =>
    match w.store (i :: q) x notify with
    | some w => exec c k w
    | none => (.undefined, w)
  | setChild q j i value k, w =>
    match w.setChild c (j :: q) i value with
    | some w => exec c k w
    | none => (.undefined, w)

end Prog

end Alto
