import Alto.Lib.MapEntries
import Alto.Server.PIDMatrix

/-!
# The entries of a PID matrix

A matrix over a set of PIDs has an entry for a pair of them once a value is set for it, and a value
that is set does not touch the other entries.
-/

namespace Alto.PIDMatrix

open Lib

variable {m : PIDMatrix} {S : StdSet PID} {s d a b : PID} {v : Double}

/-- The vector of the PIDs is that of a set. -/
def HasPids (m : PIDMatrix) (S : StdSet PID) : Prop := m.pids = indexPids S

/-- The assigned entry of a pair of PIDs. -/
def entry (m : PIDMatrix) (src dst : PID) : Option Double := do
  let s ← m.find src
  let d ← m.find dst
  m.matrix[toLex (s.index, d.index)]?

theorem mem_indexPids {i : IndexedPID} : i ∈ indexPids S ↔ S.toList[i.index]? = some i.pid := by
  rw [indexPids, List.mem_mapIdx]
  constructor
  · rintro ⟨k, hk, rfl⟩
    exact List.getElem?_eq_getElem hk
  · intro h
    obtain ⟨hk, hpid⟩ := List.getElem?_eq_some_iff.1 h
    exact ⟨i.index, hk, by rw [hpid]⟩

/-- A PID has one index and an index belongs to one PID. -/
theorem indexPids_inj {i j : IndexedPID} (hi : i ∈ indexPids S) (hj : j ∈ indexPids S) :
    i.pid = j.pid ↔ i.index = j.index := by
  rw [mem_indexPids] at hi hj
  constructor
  · intro h
    obtain ⟨hlt, hi⟩ := List.getElem?_eq_some_iff.1 hi
    obtain ⟨hlt', hj⟩ := List.getElem?_eq_some_iff.1 hj
    exact (List.Nodup.getElem_inj_iff (StdSet.nodup_toList S)).1 (by rw [hi, hj, h])
  · intro h
    rw [h, hj] at hi
    exact (Option.some.inj hi).symm

theorem pid_mem {i : IndexedPID} (h : i ∈ indexPids S) : i.pid ∈ S :=
  Std.ExtTreeSet.mem_toList.1 (List.mem_of_getElem? (mem_indexPids.1 h))

theorem exists_index (h : s ∈ S) : ∃ i ∈ indexPids S, i.pid = s := by
  obtain ⟨k, hk, hs⟩ := List.getElem_of_mem (Std.ExtTreeSet.mem_toList.2 h)
  exact ⟨⟨s, k⟩, mem_indexPids.2 (List.getElem?_eq_some_iff.2 ⟨hk, hs⟩), rfl⟩

theorem map_pid_indexPids : (indexPids S).map (·.pid) = S.toList := by
  refine List.ext_getElem? fun k => ?_
  simp [indexPids, Option.map_map, Function.comp_def]

theorem HasPids.find (h : m.HasPids S) {i : IndexedPID} (hi : i ∈ indexPids S) :
    m.find i.pid = some i := by
  cases hf : m.find i.pid with
  | none =>
    have hnone := List.find?_eq_none.1 hf i (h ▸ hi)
    simp at hnone
  | some j =>
    have hj : j ∈ indexPids S := h ▸ List.mem_of_find?_eq_some hf
    have hpid : j.pid = i.pid := by simpa using List.find?_some hf
    have hindex := (indexPids_inj hj hi).1 hpid
    cases i
    cases j
    simp_all

theorem HasPids.find_none (h : m.HasPids S) (hs : s ∉ S) : m.find s = none := by
  refine List.find?_eq_none.2 fun i hi => ?_
  have hmem := pid_mem (h ▸ hi : i ∈ indexPids S)
  intro heq
  exact hs (by simpa using (decide_eq_true_iff.1 heq) ▸ hmem)

theorem getByPid_eq : m.getByPid s d .nan = (m.entry s d).getD .nan := by
  unfold getByPid entry
  cases m.find s with
  | none => rfl
  | some i =>
    cases m.find d with
    | none => rfl
    | some j =>
      change (if m.elem i.index j.index = .nan then .nan else m.elem i.index j.index) =
        m.elem i.index j.index
      split
      · next h => exact h.symm
      · rfl

/-- A value that is looked up: an entry that is a number, and the default otherwise. -/
theorem getByPid_eq_filter :
    m.getByPid s d v = ((m.entry s d).filter (· ≠ .nan)).getD v := by
  unfold getByPid entry
  cases m.find s with
  | none => rfl
  | some i =>
    cases m.find d with
    | none => rfl
    | some j =>
      have helem : ∀ w : Option Double,
          (if w.getD .nan = .nan then v else w.getD .nan) = (w.filter (· ≠ .nan)).getD v := by
        intro w
        cases w with
        | none => rfl
        | some w => by_cases hw : w = .nan <;> simp [Option.filter, hw]
      exact helem _

theorem HasPids.getByPid_of_not_mem (h : m.HasPids S) (hno : ¬ (s ∈ S ∧ d ∈ S)) :
    m.getByPid s d v = v := by
  rw [getByPid]
  by_cases hs : s ∈ S
  · rw [h.find_none fun hd => hno ⟨hs, hd⟩]
    cases m.find s <;> rfl
  · rw [h.find_none hs]

theorem HasPids.setByPid (h : m.HasPids S) : ((m.setByPid s d v).2).HasPids S := by
  unfold PIDMatrix.setByPid
  split
  · exact h
  · exact h

theorem HasPids.set (h : m.HasPids S) {i j : IndexedPID} : (m.set i j v).HasPids S := h

/-- The matrix with a value set for a pair of its PIDs. -/
theorem HasPids.entry_set (h : m.HasPids S) {i j : IndexedPID} (hi : i ∈ indexPids S)
    (hj : j ∈ indexPids S) :
    (m.set i j v).entry a b = if i.pid = a ∧ j.pid = b then some v else m.entry a b := by
  have hfind : ∀ p, (m.set i j v).find p = m.find p := fun _ => rfl
  rw [entry, entry, hfind, hfind]
  by_cases ha : a ∈ S
  · by_cases hb : b ∈ S
    · obtain ⟨i', hi', rfl⟩ := exists_index ha
      obtain ⟨j', hj', rfl⟩ := exists_index hb
      rw [h.find hi', h.find hj']
      simp only [Option.bind_eq_bind, Option.bind_some, PIDMatrix.set, StdMap.get_insert,
        toLex_inj, Prod.mk_inj, indexPids_inj hi hi', indexPids_inj hj hj']
    · have hne : ¬ (i.pid = a ∧ j.pid = b) := fun heq => hb (heq.2 ▸ pid_mem hj)
      rw [if_neg hne, h.find_none hb]
      cases m.find a <;> rfl
  · have hne : ¬ (i.pid = a ∧ j.pid = b) := fun heq => ha (heq.1 ▸ pid_mem hi)
    rw [if_neg hne, h.find_none ha]
    rfl

theorem HasPids.entry_setByPid (h : m.HasPids S) (hs : s ∈ S) (hd : d ∈ S) :
    ((m.setByPid s d v).2).entry a b = if s = a ∧ d = b then some v else m.entry a b := by
  obtain ⟨i, hi, rfl⟩ := exists_index hs
  obtain ⟨j, hj, rfl⟩ := exists_index hd
  have hset : (m.setByPid i.pid j.pid v).2 = m.set i j v := by
    rw [PIDMatrix.setByPid, h.find hi, h.find hj]
  rw [hset, h.entry_set hi hj]

theorem HasPids.getByPid_setByPid (h : m.HasPids S) (hs : s ∈ S) (hd : d ∈ S) (hv : v ≠ .nan)
    {w : Double} :
    ((m.setByPid s d v).2).getByPid a b w = if s = a ∧ d = b then v else m.getByPid a b w := by
  rw [getByPid_eq_filter, getByPid_eq_filter, h.entry_setByPid hs hd]
  split
  · simp [Option.filter, hv]
  · rfl

/-- A value that is set for a PID which the matrix does not have is dropped. -/
theorem HasPids.setByPid_of_not_mem (h : m.HasPids S) (hno : ¬ (s ∈ S ∧ d ∈ S)) :
    (m.setByPid s d v).2 = m := by
  unfold PIDMatrix.setByPid
  by_cases hs : s ∈ S
  · rw [h.find_none fun hd => hno ⟨hs, hd⟩]
    cases m.find s <;> rfl
  · rw [h.find_none hs]

/-- The new matrix of a set of PIDs. -/
theorem hasPids_setPids : (empty.setPids S).HasPids S := rfl

theorem entry_setPids : (empty.setPids S).entry a b = none := by
  have hmatrix : (empty.setPids S).matrix = ∅ := rfl
  unfold entry
  rw [hmatrix]
  cases (empty.setPids S).find a <;> cases (empty.setPids S).find b <;> simp

end Alto.PIDMatrix
