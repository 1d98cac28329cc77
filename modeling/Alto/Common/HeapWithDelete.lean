import Mathlib

/-!
# The heap with deletion

`RandomAccessSet` (`common/cpp/src/include/p4p/detail/random_access_set.h`) and `MaxHeapWithDelete`
(`common/cpp/src/include/p4p/detail/heap_with_delete.h`). `less` is the comparator that tells
duplicates and `larger` the one of the priorities.
-/

namespace Alto.Common

variable {T : Type}

/-- Two elements that a comparator does not tell apart. -/
def equiv (less : T → T → Bool) (a b : T) : Bool :=
  !less a b && !less b a

/-- `RandomAccessSet`. The vector is the memory behind it: a slot at or behind `size` keeps what was
last stored there. The map `m_vec_index` is given by its lookups. -/
structure RandomAccessSet (T : Type) where
  vec : Nat → T
  size : Nat
  vecIndex : T → Option Nat

namespace RandomAccessSet

instance [Inhabited T] : Inhabited (RandomAccessSet T) :=
  ⟨{ vec := fun _ => default, size := 0, vecIndex := fun _ => none }⟩

variable (less : T → T → Bool)

/-- `m_vec_index[value] = idx`. -/
def setIndex (index : T → Option Nat) (value : T) (idx : Nat) : T → Option Nat :=
  fun t => if equiv less t value then some idx else index t

/-- `RandomAccessSet::find`, with `none` for `npos`. -/
def find (s : RandomAccessSet T) (value : T) : Option Nat :=
  s.vecIndex value

/-- `RandomAccessSet::push_back`. -/
def pushBack (s : RandomAccessSet T) (value : T) : RandomAccessSet T :=
  if (s.find value).isSome then s
  else
    { vec := Function.update s.vec s.size value
      size := s.size + 1
      vecIndex := setIndex less s.vecIndex value s.size }

/-- `RandomAccessSet::pop_back`. -/
def popBack (s : RandomAccessSet T) : RandomAccessSet T :=
  if s.size = 0 then s
  else
    { s with
      size := s.size - 1
      vecIndex := fun t => if equiv less t (s.vec (s.size - 1)) then none else s.vecIndex t }

/-- `RandomAccessSet::swap`. -/
def swap (s : RandomAccessSet T) (idx₁ idx₂ : Nat) : RandomAccessSet T :=
  { s with
    vec := fun i => if i = idx₁ then s.vec idx₂ else if i = idx₂ then s.vec idx₁ else s.vec i
    vecIndex := setIndex less (setIndex less s.vecIndex (s.vec idx₁) idx₂) (s.vec idx₂) idx₁ }

/-- `RandomAccessSet::erase`. -/
def erase (s : RandomAccessSet T) (value : T) : RandomAccessSet T :=
  match s.find value with
  | none => s
  | some idx => (s.swap less idx (s.size - 1)).popBack less

/-- The answer of `RandomAccessSet::push_back`. -/
def pushBackAnswer (s : RandomAccessSet T) (value : T) : Bool :=
  if (s.find value).isSome then false else true

/-- The answer of `RandomAccessSet::erase`. -/
def eraseAnswer (s : RandomAccessSet T) (value : T) : Bool :=
  match s.find value with
  | none => false
  | some _ => true

/-- A set as it is constructed; nothing is known of the memory behind its vector. -/
def empty (memory : Nat → T) : RandomAccessSet T :=
  { vec := memory, size := 0, vecIndex := fun _ => none }

/-- The elements in the order of the vector. -/
def elements (s : RandomAccessSet T) : List T := (List.range s.size).map s.vec

end RandomAccessSet

/-- `MaxHeapWithDelete`. -/
abbrev MaxHeapWithDelete (T : Type) := RandomAccessSet T

namespace MaxHeapWithDelete

variable (less larger : T → T → Bool)

/-- `MaxHeapWithDelete::parent`. -/
def parent (idx : Nat) : Nat := (idx + 1) / 2 - 1

/-- `MaxHeapWithDelete::left_child`. -/
def leftChild (idx : Nat) : Nat := 2 * (idx + 1) - 1

/-- `MaxHeapWithDelete::right_child`. -/
def rightChild (idx : Nat) : Nat := 2 * (idx + 1) + 1 - 1

/-- The index `largest` of `percolateDown`. -/
def largest (h : MaxHeapWithDelete T) (idx : Nat) : Nat :=
  let largest :=
    if leftChild idx < h.size ∧ larger (h.vec (leftChild idx)) (h.vec idx) then leftChild idx
    else idx
  if rightChild idx < h.size ∧ larger (h.vec (rightChild idx)) (h.vec largest) then rightChild idx
  else largest

/-- `MaxHeapWithDelete::percolateDown`. Each call has a greater index, so as many calls as there are
elements are enough. -/
def percolateDown (h : MaxHeapWithDelete T) (idx : Nat) : Nat → MaxHeapWithDelete T
  | 0 => h
  | fuel + 1 =>
    let largest := largest larger h idx
    if largest ≠ idx then percolateDown (h.swap less largest idx) largest fuel else h

/-- `MaxHeapWithDelete::percolateUp`. Each round has a smaller index, so as many rounds as the first
index says are enough. -/
def percolateUp (h : MaxHeapWithDelete T) (idx : Nat) (moved : Bool) :
    Nat → Bool × MaxHeapWithDelete T
  | 0 => (moved, h)
  | fuel + 1 =>
    if 0 < idx ∧ larger (h.vec idx) (h.vec (parent idx)) then
      percolateUp (h.swap less idx (parent idx)) (parent idx) true fuel
    else (moved, h)

/-- `MaxHeapWithDelete::push`: `none` for its answer `false`. -/
def push (h : MaxHeapWithDelete T) (value : T) : Option (MaxHeapWithDelete T) :=
  if (h.find value).isSome then none
  else
    let h := h.pushBack less value
    some (percolateUp less larger h (h.size - 1) false (h.size - 1)).2

/-- `MaxHeapWithDelete::pop`: `none` for its answer `false`. -/
def pop (h : MaxHeapWithDelete T) : Option (MaxHeapWithDelete T) :=
  if h.size = 0 then none
  else
    let h := (h.swap less 0 (h.size - 1)).popBack less
    some (percolateDown less larger h 0 h.size)

/-- `MaxHeapWithDelete::top`. -/
def top (h : MaxHeapWithDelete T) : T := h.vec 0

/-- `MaxHeapWithDelete::erase`: `none` for its answer `false`. If the element stands at the end,
`percolateUp` is called for the slot that has just been given up. -/
def erase (h : MaxHeapWithDelete T) (value : T) : Option (MaxHeapWithDelete T) :=
  match h.find value with
  | none => none
  | some idx =>
    let h := (h.swap less idx (h.size - 1)).popBack less
    match percolateUp less larger h idx false idx with
    | (true, h) => some h
    | (false, h) => some (percolateDown less larger h idx h.size)

/-- `MaxHeapWithDelete::find`, with the stored element. -/
def findValue (h : MaxHeapWithDelete T) (value : T) : Option T :=
  (h.find value).map h.vec

end MaxHeapWithDelete

/-! ## Checked accesses

The heap once more, where `operator[]` and `swap` have no result for an index that is not smaller
than the size of the vector, and neither has anything that uses it. -/

namespace RandomAccessSet

/-- `RandomAccessSet::operator[]`. -/
def read (s : RandomAccessSet T) (idx : Nat) : Option T :=
  if idx < s.size then some (s.vec idx) else none

/-- `RandomAccessSet::swap`. -/
def swapChecked (less : T → T → Bool) (s : RandomAccessSet T) (idx₁ idx₂ : Nat) :
    Option (RandomAccessSet T) :=
  if idx₁ < s.size ∧ idx₂ < s.size then some (s.swap less idx₁ idx₂) else none

end RandomAccessSet

namespace MaxHeapWithDelete

variable (less larger : T → T → Bool)

/-- `MaxHeapWithDelete::is_larger`. -/
def isLargerChecked (h : MaxHeapWithDelete T) (idx₁ idx₂ : Nat) : Option Bool := do
  return larger (← h.read idx₁) (← h.read idx₂)

/-- The index `largest` of `percolateDown`. -/
def largestChecked (h : MaxHeapWithDelete T) (idx : Nat) : Option Nat := do
  let leftLarger ←
    if leftChild idx < h.size then isLargerChecked larger h (leftChild idx) idx else some false
  let largest := if leftLarger then leftChild idx else idx
  let rightLarger ←
    if rightChild idx < h.size then isLargerChecked larger h (rightChild idx) largest
    else some false
  return if rightLarger then rightChild idx else largest

/-- `MaxHeapWithDelete::percolateDown`. -/
def percolateDownChecked (h : MaxHeapWithDelete T) (idx : Nat) :
    Nat → Option (MaxHeapWithDelete T)
  | 0 => some h
  | fuel + 1 => do
    let largest ← largestChecked larger h idx
    if largest ≠ idx then
      let h ← h.swapChecked less largest idx
      percolateDownChecked h largest fuel
    else some h

/-- `MaxHeapWithDelete::percolateUp`. -/
def percolateUpChecked (h : MaxHeapWithDelete T) (idx : Nat) (moved : Bool) :
    Nat → Option (Bool × MaxHeapWithDelete T)
  | 0 => some (moved, h)
  | fuel + 1 => do
    let larger ← if 0 < idx then isLargerChecked larger h idx (parent idx) else some false
    if larger then
      let h ← h.swapChecked less idx (parent idx)
      percolateUpChecked h (parent idx) true fuel
    else some (moved, h)

/-- `MaxHeapWithDelete::push`. -/
def pushChecked (h : MaxHeapWithDelete T) (value : T) : Option (Option (MaxHeapWithDelete T)) :=
  if (h.find value).isSome then some none
  else do
    let h := h.pushBack less value
    let (_, h) ← percolateUpChecked less larger h (h.size - 1) false (h.size - 1)
    return some h

/-- `MaxHeapWithDelete::pop`. -/
def popChecked (h : MaxHeapWithDelete T) : Option (Option (MaxHeapWithDelete T)) :=
  if h.size = 0 then some none
  else do
    let h ← h.swapChecked less 0 (h.size - 1)
    let h := h.popBack less
    let h ← percolateDownChecked less larger h 0 h.size
    return some h

/-- `MaxHeapWithDelete::erase`. -/
def eraseChecked (h : MaxHeapWithDelete T) (value : T) :
    Option (Option (MaxHeapWithDelete T)) :=
  match h.find value with
  | none => some none
  | some idx => do
    let h ← h.swapChecked less idx (h.size - 1)
    let h := h.popBack less
    match ← percolateUpChecked less larger h idx false idx with
    | (true, h) => return some h
    | (false, h) =>
      let h ← percolateDownChecked less larger h idx h.size
      return some h

end MaxHeapWithDelete

end Alto.Common
