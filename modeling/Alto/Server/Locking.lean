import Alto.Lib.StdMap

/-!
# Locks on a local object

`common-server/src/include/p4pserver/locking.h` and `LocalObject::begin_write` / `end_write` of
`common-server/src/lib/local_obj.cpp`. Each lock class owns the object's `boost::shared_mutex` in
one way; the constructor of a write lock first acquires the mutex and then calls `begin_write`, its
destructor calls `end_write` and then releases. These are separate steps, so that any interleaving
of threads is a list of steps.

The mutex follows the documented rules: shared ownership excludes unique ownership, upgrade
ownership excludes unique and other upgrade ownership, and upgrade ownership becomes unique only
once no shared ownership is left. A step that would have to wait is not taken.
-/

namespace Alto.Locking

open Lib

/-- The lock classes. -/
inductive LockClass where
  | blockReadLock
  | tryReadLock
  | upgradableReadLock
  | upgradedWriteLock
  | blockWriteLock
  deriving DecidableEq

/-- The ways to own a `boost::shared_mutex`. -/
inductive Ownership where
  | none
  | shared
  | upgrade
  | unique
  deriving DecidableEq

/-- The type of the member `lock_`: `boost::shared_lock`, `upgrade_lock` or
`upgrade_to_unique_lock`. -/
def LockClass.ownership : LockClass → Ownership
  | .blockReadLock => .shared
  | .tryReadLock => .shared
  | .upgradableReadLock => .upgrade
  | .upgradedWriteLock => .unique
  | .blockWriteLock => .shared

/-- The subclasses of `WritableLock`. -/
def LockClass.writable : LockClass → Bool
  | .upgradedWriteLock => true
  | .blockWriteLock => true
  | _ => false

/-- How far a lock object has come: the mutex is acquired; `begin_write` has returned (a read lock
starts here); `end_write` has returned. -/
inductive Phase where
  | acquired
  | active
  | ended
  deriving DecidableEq

/-- A lock object. `source` is the `UpgradableReadLock` that an `UpgradedWriteLock` was built from. -/
structure Lock where
  owner : Nat
  cls : LockClass
  own : Ownership
  source : Option Nat
  phase : Phase
  deriving DecidableEq

/-- A `LocalObject` and the lock objects on it. -/
structure LocalObject where
  locks : StdMap Nat Lock
  writing : Bool

/-- A new object. -/
def LocalObject.init : LocalObject := ⟨∅, false⟩

/-- The steps of the threads. -/
inductive Step where
  /-- Construct a lock on the object; for a `BlockWriteLock`, up to `begin_write`. -/
  | acquire (id owner : Nat) (cls : LockClass)
  /-- The constructor of a `TryReadLock` throws `TryLockFailed`. -/
  | tryFail (owner : Nat)
  /-- Construct an `UpgradedWriteLock` from an `UpgradableReadLock`, up to `begin_write`. -/
  | upgrade (id source : Nat)
  | beginWrite (id : Nat)
  | endWrite (id : Nat)
  /-- Destroy the member `lock_`. -/
  | release (id : Nat)

/-- Whether the mutex grants an ownership while the given ones are held. -/
def grants (held : List Ownership) : Ownership → Bool
  | .none => true
  | .shared => held.all (· ≠ .unique)
  | .upgrade => held.all fun o => o ≠ .unique ∧ o ≠ .upgrade
  | .unique => held.all (· = .none)

/-- The ownerships held through the lock objects. -/
def LocalObject.held (obj : LocalObject) : List Ownership := obj.locks.toList.map (·.2.own)

/-- `~upgrade_to_unique_lock`: the source gets what the lock owns, the upgrade or nothing, for what it
owns itself. -/
def giveBack (locks : StdMap Nat Lock) (lock : Lock) : StdMap Nat Lock :=
  match lock.source with
  | some src =>
    locks.modify src fun l => { l with own := if lock.own = .unique then .upgrade else .none }
  | none => locks

/-- The member `lock_` is destroyed. -/
def dropLock (locks : StdMap Nat Lock) (id : Nat) (lock : Lock) : StdMap Nat Lock :=
  giveBack (locks.erase id) lock

/-- One step; `none` if the thread has to wait or the step makes no sense in the state. -/
def step (obj : LocalObject) : Step → Option LocalObject
  | .acquire id owner cls =>
    if id ∉ obj.locks ∧ cls ≠ .upgradedWriteLock ∧ grants obj.held cls.ownership then
      let phase := if cls.writable then .acquired else .active
      some { obj with locks := obj.locks.insert id ⟨owner, cls, cls.ownership, none, phase⟩ }
    else none
  | .tryFail _ => some obj
  | .upgrade id src =>
    match obj.locks[src]? with
    | some u =>
      if id ∉ obj.locks ∧ u.cls = .upgradableReadLock then
        if u.own = .upgrade then
          -- the upgrade itself does not stand in the way
          let locks := obj.locks.insert src { u with own := .none }
          if grants (locks.toList.map (·.2.own)) .unique then
            some { obj with
              locks := locks.insert id ⟨u.owner, .upgradedWriteLock, .unique, some src, .acquired⟩ }
          else none
        else
          -- an `upgrade_lock` that does not own the mutex has nothing to pass on
          some { obj with
            locks := obj.locks.insert id ⟨u.owner, .upgradedWriteLock, .none, some src, .acquired⟩ }
      else none
    | none => none
  | .beginWrite id =>
    match obj.locks[id]? with
    | some l =>
      if l.phase = .acquired then
        -- `begin_write` throws, and the constructor's members are destroyed
        if obj.writing then some { obj with locks := dropLock obj.locks id l }
        else some ⟨obj.locks.insert id { l with phase := .active }, true⟩
      else none
    | none => none
  | .endWrite id =>
    match obj.locks[id]? with
    | some l =>
      if l.phase = .active ∧ l.cls.writable ∧ obj.writing then
        some ⟨obj.locks.insert id { l with phase := .ended }, false⟩
      else none
    | none => none
  | .release id =>
    match obj.locks[id]? with
    | some l =>
      -- a lock that another one was built from outlives it
      if (l.phase = .ended ∨ l.cls.writable = false) ∧
          obj.locks.toList.all fun x => x.2.source ≠ some id then
        some { obj with locks := dropLock obj.locks id l }
      else none
    | none => none

end Alto.Locking
