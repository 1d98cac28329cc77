import Mathlib

/-!
# Threads by phase

Finitely many threads, each in a phase of its code. An invariant of their interleavings counts the
threads in a phase; a step moves one thread to another phase, and a signal moves all threads that
wait for it.
-/

namespace Alto.Lib

variable {T P : Type*} [Fintype T] [DecidableEq P]

/-- How many threads are in a phase. -/
def count (phase : T → P) (p : P) : Nat := (Finset.univ.filter fun t => phase t = p).card

variable {phase : T → P} {t : T} {p q : P}

theorem count_pos : 0 < count phase p ↔ ∃ t, phase t = p := by
  rw [count, Finset.card_pos]
  simp [Finset.Nonempty]

theorem count_eq_zero : count phase p = 0 ↔ ∀ t, phase t ≠ p := by
  rw [← Nat.le_zero, ← not_lt, count_pos]
  exact not_exists

/-- The number of threads bounds the number of those in two phases. -/
theorem count_add_le_card (hne : p ≠ q) : count phase p + count phase q ≤ Fintype.card T := by
  classical
  rw [count, count, ← Finset.card_union_of_disjoint]
  · exact Finset.card_le_univ _
  · rw [Finset.disjoint_filter]
    exact fun t _ hp hq => hne (hp.symm.trans hq)

/-- A thread alone in its phase. -/
theorem eq_of_count_eq_one {t' : T} (h : count phase p = 1) (ht : phase t = p)
    (ht' : phase t' = p) : t' = t := by
  obtain ⟨u, hu⟩ := Finset.card_eq_one.1 h
  have hmem : ∀ t, phase t = p → t = u := fun t ht =>
    Finset.mem_singleton.1 (hu ▸ Finset.mem_filter.2 ⟨Finset.mem_univ t, ht⟩)
  rw [hmem t ht, hmem t' ht']

/-- A step of one thread. -/
theorem count_update [DecidableEq T] (phase : T → P) (t : T) (q p : P) :
    count (Function.update phase t q) p + (if phase t = p then 1 else 0) =
      count phase p + (if q = p then 1 else 0) := by
  have hsplit : ∀ f : T → P, count f p =
      ((Finset.univ.erase t).filter fun u => f u = p).card + (if f t = p then 1 else 0) := by
    intro f
    have hinsert : (Finset.univ : Finset T) = insert t (Finset.univ.erase t) := by simp
    rw [count, hinsert, Finset.filter_insert]
    split
    · rw [Finset.card_insert_of_notMem (by simp)]
      simp
    · simp
  have hrest : ((Finset.univ.erase t).filter fun u => Function.update phase t q u = p) =
      (Finset.univ.erase t).filter fun u => phase u = p := by
    refine Finset.filter_congr fun u hu => ?_
    rw [Function.update_of_ne (Finset.ne_of_mem_erase hu)]
  rw [hsplit (Function.update phase t q), hsplit phase, hrest, Function.update_self]
  omega

/-- All threads that wait in one phase go on to another. -/
def wake (phase : T → P) (p q : P) (t : T) : P := if phase t = p then q else phase t

theorem count_wake_self (hne : p ≠ q) : count (wake phase p q) p = 0 := by
  rw [count_eq_zero]
  intro t
  unfold wake
  split
  · exact hne.symm
  · assumption

theorem count_wake_target (hne : p ≠ q) :
    count (wake phase p q) q = count phase p + count phase q := by
  classical
  rw [count, count, count, ← Finset.card_union_of_disjoint, ← Finset.filter_or]
  · congr 1
    refine Finset.filter_congr fun t _ => ?_
    unfold wake
    split
    · simp [*]
    · simp [*]
  · rw [Finset.disjoint_filter]
    exact fun t _ hp hq => hne (hp.symm.trans hq)

theorem count_wake_other {r : P} (hp : r ≠ p) (hq : r ≠ q) :
    count (wake phase p q) r = count phase r := by
  refine congrArg Finset.card (Finset.filter_congr fun t _ => ?_)
  unfold wake
  split
  · next h => exact iff_of_false hq.symm fun hr => hp (hr.symm.trans h)
  · exact Iff.rfl

end Alto.Lib
