import Alto.Common.Double
import Alto.Common.Prefix
import Alto.Lib.StdMap

/-!
# PID matrices

`PIDMatrixBase` (`common-server/src/include/p4pserver/pid_matrix.h`). The dense and the sparse
matrix behave alike: an entry that was never assigned reads as the `VCost()` it is constructed with,
a NaN.
-/

namespace Alto

open Lib

/-- `IndexedPID`. -/
structure IndexedPID where
  pid : PID
  index : Nat
  deriving DecidableEq

/-- `PIDMatrixBase`: the vector `pids_`, the size of `matrix_` and its assigned entries. -/
structure PIDMatrix where
  pids : List IndexedPID
  size : Nat
  matrix : StdMap (Nat ×ₗ Nat) Double
  deriving DecidableEq

namespace PIDMatrix

/-- A new matrix. -/
def empty : PIDMatrix := ⟨[], 0, ∅⟩

/-- `pids_by_pid_->find(pid)`. -/
def find (m : PIDMatrix) (pid : PID) : Option IndexedPID := m.pids.find? (·.pid = pid)

/-- `(*matrix_)(i, j)`. -/
def elem (m : PIDMatrix) (i j : Nat) : Double := (m.matrix[toLex (i, j)]?).getD .nan

/-- The PIDs of the matrix as a set. -/
def pidSet (m : PIDMatrix) : StdSet PID := m.pids.foldl (fun s p => s.insert p.pid) ∅

/-- `new_pids_by_idx` in `set_pids`. -/
def indexPids (locs : StdSet PID) : List IndexedPID := locs.toList.mapIdx fun i pid => ⟨pid, i⟩

/-- One entry copied by `set_pids`. -/
def copyEntry (m : PIDMatrix) (newPids : List IndexedPID) (new : StdMap (Nat ×ₗ Nat) Double)
    (ij : Nat × Nat) : StdMap (Nat ×ₗ Nat) Double :=
  if m.elem ij.1 ij.2 = .nan then new
  else
    match m.pids[ij.1]?.bind (fun p => newPids.find? (·.pid = p.pid)),
      m.pids[ij.2]?.bind (fun p => newPids.find? (·.pid = p.pid)) with
    | some i, some j => new.insert (toLex (i.index, j.index)) (m.elem ij.1 ij.2)
    | _, _ => new

/-- `PIDMatrixBase::set_pids`. -/
def setPids (m : PIDMatrix) (locs : StdSet PID) : PIDMatrix :=
  ⟨indexPids locs, locs.toList.length,
    ((List.range m.size).product (List.range m.size)).foldl (m.copyEntry (indexPids locs)) ∅⟩

/-- `PIDMatrixBase::add_pid`. -/
def addPid (m : PIDMatrix) (pid : PID) : Bool × PIDMatrix :=
  match m.find pid with
  | some _ => (false, m)
  | none => (true, m.setPids (m.pidSet.insert pid))

/-- `std::set_difference` of two sorted ranges. -/
def setDifference {K : Type} [LinearOrder K] : List K → List K → List K
  | [], _ => []
  | a :: as, [] => a :: as
  | a :: as, b :: bs =>
    if a < b then a :: setDifference as (b :: bs)
    else if b < a then setDifference (a :: as) bs
    else setDifference as bs
  termination_by as bs => as.length + bs.length

/-- `std::set_union` of two sorted ranges. -/
def setUnion {K : Type} [LinearOrder K] : List K → List K → List K
  | [], bs => bs
  | a :: as, [] => a :: as
  | a :: as, b :: bs =>
    if a < b then a :: setUnion as (b :: bs)
    else if b < a then b :: setUnion (a :: as) bs
    else a :: setUnion as bs
  termination_by as bs => as.length + bs.length

/-- The set with the elements of a range. -/
def toSet (pids : List PID) : StdSet PID := pids.foldl (·.insert ·) ∅

/-- `PIDMatrixBase::add_pids` of a set. The ranges are compared in the order of the indices. -/
def addPids (m : PIDMatrix) (pids : StdSet PID) : PIDMatrix :=
  let newPids := toSet (setDifference pids.toList (m.pids.map (·.pid)))
  if newPids.isEmpty then m
  else m.setPids (toSet (setUnion (m.pids.map (·.pid)) newPids.toList))

/-- `PIDMatrixBase::add_pids` of a vector. -/
def addPidsVector (m : PIDMatrix) (pids : List PID) : PIDMatrix := m.addPids (toSet pids)

/-- `PIDMatrixBase::set_pids` of a vector. -/
def setPidsVector (m : PIDMatrix) (locs : List PID) : PIDMatrix := m.setPids (toSet locs)

/-- `PIDMatrixBase::remove_pid`. -/
def removePid (m : PIDMatrix) (pid : PID) : Bool × PIDMatrix :=
  match m.find pid with
  | none => (false, m)
  | some _ => (true, m.setPids (m.pidSet.erase pid))

/-- `PIDMatrixBase::get`. -/
def get (m : PIDMatrix) (src dst : IndexedPID) (dflt : Double) : Double :=
  if m.elem src.index dst.index = .nan then dflt else m.elem src.index dst.index

/-- `PIDMatrixBase::get_by_pid`. -/
def getByPid (m : PIDMatrix) (src dst : PID) (dflt : Double) : Double :=
  match m.find src, m.find dst with
  | some s, some d => m.get s d dflt
  | _, _ => dflt

/-- `PIDMatrixBase::set`. -/
def set (m : PIDMatrix) (src dst : IndexedPID) (value : Double) : PIDMatrix :=
  { m with matrix := m.matrix.insert (toLex (src.index, dst.index)) value }

/-- `PIDMatrixBase::set_by_pid`. -/
def setByPid (m : PIDMatrix) (src dst : PID) (value : Double) : Bool × PIDMatrix :=
  match m.find src, m.find dst with
  | some s, some d => (true, m.set s d value)
  | _, _ => (false, m)

/-- `PIDMatrixBase::do_copy_properties`. -/
def doCopyProperties (m : PIDMatrix) : PIDMatrix := ⟨m.pids, m.size, m.matrix⟩

end PIDMatrix

end Alto
