import Alto.Lib.Reach
import Alto.Lib.StdMap

/-!
# Stored objects

`LocalObject` (`common-server/src/lib/local_obj.cpp`) and `DistributedObject`
(`common-server/src/include/p4pserver/dist_obj.h`, `common-server/src/lib/dist_obj.cpp`). Objects
are numbered in the order of their creation; a `shared_ptr` is the number of its object. What a
derived class stores is its payload; `do_copy_properties`, which every derived class writes for
itself, is a parameter together with what it does to the object that is copied.
-/

namespace Alto

open Lib

/-- Where an object stands below a root: the child indexes from the object up to the root. -/
abbrev Path := List Nat

/-- A `DistributedObject`: what the derived class stores, `children_`, `version_` and
`changed_fired_`. -/
structure Obj (P : Type) where
  payload : P
  children : List (Option Nat)
  version : Nat
  fired : Bool
  deriving DecidableEq

/-- All objects, by number. -/
abbrev Heap (P : Type) := List (Obj P)

/-- What a derived class does when one of its objects is copied: the payload of the new object, the
payload that the copied object is left with, and the value of `version_`, which the constructor of
`LocalObject` does not initialize, in the object with the given number. -/
structure Copying (P : Type) where
  copyOf : P → P
  leave : P → P
  junk : Nat → Nat

namespace Obj

variable {P : Type}

/-- `LocalObject::changed`: the first change after the object has been locked increments the
version, an `unsigned int`. -/
def changed (o : Obj P) : Obj P :=
  if o.fired then o else { o with version := (o.version + 1) % 2 ^ 32, fired := true }

/-- `LocalObject::begin_write` and `LocalObject::end_write`. -/
def resetFired (o : Obj P) : Obj P := { o with fired := false }

/-- `DistributedObject::get_child`. -/
def getChild (o : Obj P) (i : Nat) : Option Nat := (o.children[i]?).join

/-- `children_.resize(std::max(children_.size(), i + 1)); children_[i] = value`. -/
def putChild (children : List (Option Nat)) (i : Nat) (value : Option Nat) : List (Option Nat) :=
  (children ++ List.replicate (i + 1 - children.length) none).set i value

/-- `DistributedObject::set_child`. -/
def setChild (o : Obj P) (i : Nat) (value : Option Nat) : Obj P :=
  changed { o with children := putChild o.children i value }

/-- `DistributedObject::find_child`; `none` is `UINT_MAX`. -/
def findChild (o : Obj P) (value : Nat) : Option Nat := o.children.idxOf? (some value)

/-- `DistributedObject::get_children`. -/
def getChildren (o : Obj P) : List Nat := o.children.filterMap id

/-- A new value of what the derived class stores, followed by `changed` if `notify` is set. -/
def store (o : Obj P) (x : P) (notify : Bool) : Obj P :=
  if notify then changed { o with payload := x } else { o with payload := x }

/-- `DistributedObject::copy`, with the number of the new object. -/
def copy (c : Copying P) (o : Obj P) (n : Nat) : Obj P :=
  ⟨c.copyOf o.payload, o.children, c.junk n, false⟩

/-- The object that was copied. -/
def afterCopy (c : Copying P) (o : Obj P) : Obj P := { o with payload := c.leave o.payload }

end Obj

/-- An object under construction, with children that have none themselves. -/
structure NewObj (P : Type) where
  payload : P
  leaves : List P
  deriving DecidableEq

namespace Heap

variable {P : Type}

/-- The children of the objects, as a graph. -/
def links (h : Heap P) (a i : Nat) : Option Nat := (h[a]?).bind (·.getChild i)

/-- The object at a path below a root. -/
def find (h : Heap P) (root : Nat) (p : Path) : Option (Nat × Obj P) := do
  let a ← resolve h.links root p
  let o ← h[a]?
  return (a, o)

/-- The objects of a constructor call, in the order of their numbers. -/
def newObjs (c : Copying P) (n : Nat) (x : NewObj P) : List (Obj P) :=
  ⟨x.payload, (List.range x.leaves.length).map fun i => some (n + 1 + i), c.junk n, false⟩ ::
    x.leaves.mapIdx fun i y => ⟨y, [], c.junk (n + 1 + i), false⟩

/-- The vector of objects that the loop of `AdminState::txn_begin` fills: an object is followed by
its children. -/
def collect (h : Heap P) (root : Nat) : List Nat :=
  levels (fun a => (h[a]?).elim [] Obj.getChildren) h.length [root]

end Heap

end Alto
