import Mathlib
import Alto.Lib.Run
import Alto.Verify.PIDMatrix

/-!
# A PID matrix is a table

What a `PIDMatrixBase` is for: a table of values for pairs of PIDs (`Table`). Whatever calls have
been made, the matrix represents the table that the same calls leave. Every change of the PIDs gives
all of them new indices and copies the entries; a NaN is no value.
-/

namespace Alto.PIDMatrix

open Lib

variable {m m' : PIDMatrix} {S S' : StdSet PID} {s d a b p : PID} {v dflt : Double}

/-! ## Ranges -/

section Ranges

variable {K : Type} [LinearOrder K] {as bs : List K} {x : K}

theorem mem_setUnion : x ∈ setUnion as bs ↔ x ∈ as ∨ x ∈ bs := by
  fun_induction setUnion as bs with
  | case1 bs => simp
  | case2 a as => simp
  | case3 a as b bs hlt ih => simp [ih, or_assoc]
  | case4 a as b bs hnot hlt ih => simp [ih, or_left_comm]
  | case5 a as b bs hnot hnot' ih =>
    obtain rfl := le_antisymm (not_lt.1 hnot') (not_lt.1 hnot)
    simp only [List.mem_cons, ih]
    tauto

theorem mem_setDifference (has : as.Pairwise (· < ·)) (hbs : bs.Pairwise (· < ·)) :
    x ∈ setDifference as bs ↔ x ∈ as ∧ x ∉ bs := by
  fun_induction setDifference as bs with
  | case1 bs => simp
  | case2 a as => simp
  | case3 a as b bs hlt ih =>
    obtain ⟨-, has'⟩ := List.pairwise_cons.1 has
    obtain ⟨hb, -⟩ := List.pairwise_cons.1 hbs
    have hnot : a ∉ b :: bs := by
      intro hmem
      rcases List.mem_cons.1 hmem with rfl | hmem
      · exact lt_irrefl a hlt
      · exact lt_asymm hlt (hb a hmem)
    constructor
    · intro hmem
      rcases List.mem_cons.1 hmem with rfl | hmem
      · exact ⟨List.mem_cons_self, hnot⟩
      · obtain ⟨hx, hxb⟩ := (ih has' hbs).1 hmem
        exact ⟨List.mem_cons_of_mem _ hx, hxb⟩
    · rintro ⟨hx, hxb⟩
      rcases List.mem_cons.1 hx with rfl | hx
      · exact List.mem_cons_self
      · exact List.mem_cons_of_mem _ ((ih has' hbs).2 ⟨hx, hxb⟩)
  | case4 a as b bs hnot hlt ih =>
    obtain ⟨ha, -⟩ := List.pairwise_cons.1 has
    obtain ⟨-, hbs'⟩ := List.pairwise_cons.1 hbs
    rw [ih has hbs']
    refine and_congr_right fun hx => ?_
    have hne : x ≠ b := by
      rintro rfl
      rcases List.mem_cons.1 hx with rfl | hx
      · exact lt_irrefl _ hlt
      · exact lt_asymm hlt (ha _ hx)
    simp [hne]
  | case5 a as b bs hnot hnot' ih =>
    obtain rfl := le_antisymm (not_lt.1 hnot') (not_lt.1 hnot)
    obtain ⟨ha, has'⟩ := List.pairwise_cons.1 has
    obtain ⟨-, hbs'⟩ := List.pairwise_cons.1 hbs
    rw [ih has' hbs', List.mem_cons, List.mem_cons, not_or]
    constructor
    · rintro ⟨hx, hxb⟩
      exact ⟨.inr hx, (ha x hx).ne', hxb⟩
    · rintro ⟨rfl | hx, hne, hxb⟩
      · exact absurd rfl hne
      · exact ⟨hx, hxb⟩

end Ranges

theorem mem_toSet {pids : List PID} : p ∈ toSet pids ↔ p ∈ pids := by
  rw [toSet, StdSet.mem_foldl_insert]
  simp

theorem pairwise_toList (S : StdSet PID) : S.toList.Pairwise (· < ·) := by
  refine Std.ExtTreeSet.ordered_toList.imp fun h => ?_
  exact compare_lt_iff_lt.1 h

/-! ## Changing the PIDs -/

/-- The entry that `set_pids` copies, under its new key. -/
def target (m : PIDMatrix) (newPids : List IndexedPID) (ij : Nat × Nat) :
    Option ((Nat ×ₗ Nat) × Double) :=
  if m.elem ij.1 ij.2 = .nan then none
  else do
    let i ← m.pids[ij.1]?.bind fun p => newPids.find? (·.pid = p.pid)
    let j ← m.pids[ij.2]?.bind fun p => newPids.find? (·.pid = p.pid)
    return (toLex (i.index, j.index), m.elem ij.1 ij.2)

theorem foldl_copyEntry (m : PIDMatrix) (newPids : List IndexedPID) (l : List (Nat × Nat))
    (new : StdMap (Nat ×ₗ Nat) Double) :
    l.foldl (m.copyEntry newPids) new =
      (l.filterMap (m.target newPids)).foldl (fun new x => new.insert x.1 x.2) new := by
  rw [List.foldl_filterMap]
  congr 1
  funext new ij
  unfold copyEntry target
  split
  · rfl
  · cases m.pids[ij.1]?.bind fun p => newPids.find? (·.pid = p.pid) with
    | none => rfl
    | some i =>
      cases m.pids[ij.2]?.bind fun p => newPids.find? (·.pid = p.pid) <;> rfl

/-- A matrix of the PIDs of a set: it has as many rows and columns, and no entries outside. -/
structure Square (m : PIDMatrix) (S : StdSet PID) : Prop where
  pids : m.HasPids S
  size : m.size = S.toList.length
  inside : ∀ {i j v}, m.matrix[toLex (i, j)]? = some v → i < m.size ∧ j < m.size

theorem Square.index_lt (h : m.Square S) {i : IndexedPID} (hi : i ∈ indexPids S) :
    i.index < m.size := by
  rw [h.size]
  exact (List.getElem?_eq_some_iff.1 (mem_indexPids.1 hi)).1

theorem Square.getElem_pids (h : m.Square S) {i : IndexedPID} (hi : i ∈ indexPids S) :
    m.pids[i.index]? = some i := by
  rw [h.pids, indexPids, List.getElem?_mapIdx, mem_indexPids.1 hi]
  rfl

theorem hasPids_new (m : PIDMatrix) (S : StdSet PID) : (m.setPids S).HasPids S := rfl

theorem entry_eq_some (h : m.HasPids S) {i j : IndexedPID} (hi : i ∈ indexPids S)
    (hj : j ∈ indexPids S) : m.entry i.pid j.pid = m.matrix[toLex (i.index, j.index)]? := by
  rw [entry, h.find hi, h.find hj]
  rfl

theorem entry_of_not_mem (h : m.HasPids S) (hno : ¬ (a ∈ S ∧ b ∈ S)) : m.entry a b = none := by
  rw [entry]
  by_cases ha : a ∈ S
  · rw [h.find_none fun hb => hno ⟨ha, hb⟩]
    cases m.find a <;> rfl
  · rw [h.find_none ha]
    rfl

/-- A copied entry: its old and its new indices. -/
theorem Square.target_eq_some (h : m.Square S) {ij : Nat × Nat} {x : (Nat ×ₗ Nat) × Double} :
    m.target (indexPids S') ij = some x ↔
      ∃ i ∈ indexPids S, ∃ j ∈ indexPids S, ∃ i' ∈ indexPids S', ∃ j' ∈ indexPids S',
        ij = (i.index, j.index) ∧ i.pid = i'.pid ∧ j.pid = j'.pid ∧ m.elem ij.1 ij.2 ≠ .nan ∧
        x = (toLex (i'.index, j'.index), m.elem ij.1 ij.2) := by
  have hnew : ∀ {q : PID} {k : IndexedPID}, (indexPids S').find? (·.pid = q) = some k ↔
      k ∈ indexPids S' ∧ k.pid = q := by
    intro q k
    constructor
    · intro hk
      exact ⟨List.mem_of_find?_eq_some hk, by simpa using List.find?_some hk⟩
    · rintro ⟨hk, rfl⟩
      exact (hasPids_new m S').find hk
  have hold : ∀ {n : Nat} {q : IndexedPID}, m.pids[n]? = some q ↔
      q ∈ indexPids S ∧ q.index = n := by
    intro n q
    constructor
    · intro hq
      have hmem : q ∈ indexPids S := h.pids ▸ List.mem_of_getElem? hq
      rw [h.pids, indexPids, List.getElem?_mapIdx, Option.map_eq_some_iff] at hq
      obtain ⟨q', -, rfl⟩ := hq
      exact ⟨hmem, rfl⟩
    · rintro ⟨hq, rfl⟩
      exact h.getElem_pids hq
  unfold target
  split
  · next hnan => simp [hnan]
  next hnan =>
  simp only [Option.bind_eq_bind, Option.bind_eq_some_iff, hnew, hold, Option.pure_def,
    Option.some.injEq]
  constructor
  · rintro ⟨i', ⟨i, ⟨hi, hi1⟩, hi', hpi⟩, j', ⟨j, ⟨hj, hj1⟩, hj', hpj⟩, rfl⟩
    exact ⟨i, hi, j, hj, i', hi', j', hj', Prod.ext hi1.symm hj1.symm, hpi.symm, hpj.symm, hnan,
      rfl⟩
  · rintro ⟨i, hi, j, hj, i', hi', j', hj', rfl, hpi, hpj, -, rfl⟩
    exact ⟨i', ⟨i, ⟨hi, rfl⟩, hi', hpi.symm⟩, j', ⟨j, ⟨hj, rfl⟩, hj', hpj.symm⟩, rfl⟩

theorem Square.matrix_setPids (h : m.Square S) (k : Nat ×ₗ Nat) (v : Double) :
    (m.setPids S').matrix[k]? = some v ↔
      ∃ i ∈ indexPids S, ∃ j ∈ indexPids S, ∃ i' ∈ indexPids S', ∃ j' ∈ indexPids S',
        i.pid = i'.pid ∧ j.pid = j'.pid ∧ m.elem i.index j.index ≠ .nan ∧
        k = toLex (i'.index, j'.index) ∧ v = m.elem i.index j.index := by
  have hmatrix : (m.setPids S').matrix =
      (((List.range m.size).product (List.range m.size)).filterMap
        (m.target (indexPids S'))).foldl (fun new x => new.insert x.1 x.2) ∅ :=
    foldl_copyEntry m (indexPids S') _ ∅
  -- what is copied to a key
  have hsource : ∀ x, x ∈ ((List.range m.size).product (List.range m.size)).filterMap
      (m.target (indexPids S')) ↔
      ∃ i ∈ indexPids S, ∃ j ∈ indexPids S, ∃ i' ∈ indexPids S', ∃ j' ∈ indexPids S',
        i.pid = i'.pid ∧ j.pid = j'.pid ∧ m.elem i.index j.index ≠ .nan ∧
        x = (toLex (i'.index, j'.index), m.elem i.index j.index) := by
    intro x
    rw [List.mem_filterMap]
    constructor
    · rintro ⟨ij, -, hx⟩
      obtain ⟨i, hi, j, hj, i', hi', j', hj', rfl, hrest⟩ := h.target_eq_some.1 hx
      exact ⟨i, hi, j, hj, i', hi', j', hj', hrest⟩
    · rintro ⟨i, hi, j, hj, i', hi', j', hj', hrest⟩
      refine ⟨(i.index, j.index), ?_, h.target_eq_some.2
        ⟨i, hi, j, hj, i', hi', j', hj', rfl, hrest⟩⟩
      rw [List.pair_mem_product, List.mem_range, List.mem_range]
      exact ⟨h.index_lt hi, h.index_lt hj⟩
  rw [hmatrix]
  constructor
  · intro hv
    rcases StdMap.get_foldl_insert (·.1) (·.2) (((List.range m.size).product
      (List.range m.size)).filterMap (m.target (indexPids S'))) ∅ k with
      ⟨x, hx, rfl, hget⟩ | ⟨-, hget⟩
    · obtain rfl := Option.some.inj (hv.symm.trans hget)
      obtain ⟨i, hi, j, hj, i', hi', j', hj', hpi, hpj, hnan, rfl⟩ := (hsource x).1 hx
      exact ⟨i, hi, j, hj, i', hi', j', hj', hpi, hpj, hnan, rfl, rfl⟩
    · rw [hget] at hv
      cases Std.ExtTreeMap.getElem?_empty.symm.trans hv
  · rintro ⟨i, hi, j, hj, i', hi', j', hj', hpi, hpj, hnan, rfl, rfl⟩
    have hmem := (hsource _).2 ⟨i, hi, j, hj, i', hi', j', hj', hpi, hpj, hnan, rfl⟩
    rcases StdMap.get_foldl_insert (·.1) (·.2) (((List.range m.size).product
      (List.range m.size)).filterMap (m.target (indexPids S'))) ∅
      (toLex (i'.index, j'.index)) with ⟨x, hx, hkey, hget⟩ | ⟨hno, -⟩
    · obtain ⟨i₂, hi₂, j₂, hj₂, i₂', hi₂', j₂', hj₂', hpi₂, hpj₂, -, rfl⟩ := (hsource x).1 hx
      rw [toLex_inj, Prod.mk_inj] at hkey
      have hi_eq : i₂.index = i.index := (indexPids_inj hi₂ hi).1
        (by rw [hpi₂, hpi]; exact (indexPids_inj hi₂' hi').2 hkey.1)
      have hj_eq : j₂.index = j.index := (indexPids_inj hj₂ hj).1
        (by rw [hpj₂, hpj]; exact (indexPids_inj hj₂' hj').2 hkey.2)
      rw [hget, hi_eq, hj_eq]
    · exact absurd rfl (hno _ hmem)

theorem Square.setPids (h : m.Square S) (S' : StdSet PID) : (m.setPids S').Square S' where
  pids := rfl
  size := rfl
  inside {i j v} hv := by
    obtain ⟨-, -, -, -, i', hi', j', hj', -, -, -, hk, -⟩ := (h.matrix_setPids _ _).1 hv
    rw [toLex_inj, Prod.mk_inj] at hk
    rw [hk.1, hk.2]
    have hlt : ∀ {k : IndexedPID}, k ∈ indexPids S' → k.index < S'.toList.length :=
      fun hk => (List.getElem?_eq_some_iff.1 (mem_indexPids.1 hk)).1
    exact ⟨hlt hi', hlt hj'⟩

/-- The entries that are numbers stay, for the PIDs that stay. -/
theorem Square.entry_setPids (h : m.Square S) :
    (m.setPids S').entry a b =
      if a ∈ S' ∧ b ∈ S' then (m.entry a b).filter (· ≠ .nan) else none := by
  split
  · next hmem =>
    obtain ⟨i', hi', rfl⟩ := exists_index hmem.1
    obtain ⟨j', hj', rfl⟩ := exists_index hmem.2
    rw [entry_eq_some (hasPids_new m S') hi' hj']
    ext v
    rw [h.matrix_setPids, Option.filter_eq_some_iff]
    constructor
    · rintro ⟨i, hi, j, hj, i₂, hi₂, j₂, hj₂, hpi, hpj, hnan, hkey, rfl⟩
      rw [toLex_inj, Prod.mk_inj] at hkey
      rw [(indexPids_inj hi' hi₂).2 hkey.1, ← hpi, (indexPids_inj hj' hj₂).2 hkey.2, ← hpj,
        entry_eq_some h.pids hi hj]
      refine ⟨?_, by simpa using hnan⟩
      unfold elem at hnan ⊢
      cases hget : m.matrix[toLex (i.index, j.index)]? with
      | none => simp [hget] at hnan
      | some w => rfl
    · rintro ⟨hentry, hnan⟩
      by_cases hold : i'.pid ∈ S ∧ j'.pid ∈ S
      · obtain ⟨i, hi, hpi⟩ := exists_index hold.1
        obtain ⟨j, hj, hpj⟩ := exists_index hold.2
        rw [← hpi, ← hpj, entry_eq_some h.pids hi hj] at hentry
        have helem : m.elem i.index j.index = v := by
          unfold elem
          rw [hentry]
          rfl
        refine ⟨i, hi, j, hj, i', hi', j', hj', hpi, hpj, ?_, rfl, helem.symm⟩
        rw [helem]
        simpa using hnan
      · rw [entry_of_not_mem h.pids hold] at hentry
        cases hentry
  · next hno => exact entry_of_not_mem (hasPids_new m S') hno

/-! ## The table -/

/-- A call that changes the matrix, or goes on with a copy of it. -/
inductive Call where
  | setPids (locs : StdSet PID)
  | setPidsVector (locs : List PID)
  | addPid (pid : PID)
  | addPids (pids : StdSet PID)
  | addPidsVector (pids : List PID)
  | removePid (pid : PID)
  | set (src dst : IndexedPID) (value : Double)
  | setByPid (src dst : PID) (value : Double)
  | copy

/-- The matrix after a call. -/
def after (m : PIDMatrix) : Call → PIDMatrix
  | .setPids locs => m.setPids locs
  | .setPidsVector locs => m.setPidsVector locs
  | .addPid pid => (m.addPid pid).2
  | .addPids pids => m.addPids pids
  | .addPidsVector pids => m.addPidsVector pids
  | .removePid pid => (m.removePid pid).2
  | .set src dst value => m.set src dst value
  | .setByPid src dst value => (m.setByPid src dst value).2
  | .copy => m.doCopyProperties

/-- The indexed PIDs of a call are those of the matrix. -/
def Valid (m : PIDMatrix) : Call → Prop
  | .set src dst _ => src ∈ m.pids ∧ dst ∈ m.pids
  | _ => True

/-- A table of values for pairs of PIDs. -/
structure Table where
  pids : Set PID
  value : PID → PID → Option Double

namespace Table

/-- The table without PIDs. -/
def empty : Table := ⟨∅, fun _ _ => none⟩

open Classical in
/-- The table for other PIDs: the values between PIDs that stay, and no others. -/
noncomputable def restrict (t : Table) (pids : Set PID) : Table where
  pids := pids
  value a b := if a ∈ pids ∧ b ∈ pids then t.value a b else none

/-- A value for a pair; a NaN says that there is none. -/
def assign (t : Table) (s d : PID) (v : Double) : Table where
  pids := t.pids
  value a b := if s = a ∧ d = b then (if v = .nan then none else some v) else t.value a b

open Classical in
/-- The table after a call. -/
noncomputable def after (t : Table) : Call → Table
  | .setPids locs => t.restrict {p | p ∈ locs}
  | .setPidsVector locs => t.restrict {p | p ∈ locs}
  | .addPid pid => t.restrict (insert pid t.pids)
  | .addPids pids => t.restrict (t.pids ∪ {p | p ∈ pids})
  | .addPidsVector pids => t.restrict (t.pids ∪ {p | p ∈ pids})
  | .removePid pid => t.restrict (t.pids \ {pid})
  | .set src dst value => t.assign src.pid dst.pid value
  | .setByPid src dst value =>
    if src ∈ t.pids ∧ dst ∈ t.pids then t.assign src dst value else t
  | .copy => t

end Table

/-- The matrix is square, and its PIDs and the entries that are numbers are those of the table. -/
structure Represents (m : PIDMatrix) (S : StdSet PID) (t : Table) : Prop where
  square : m.Square S
  pids : ∀ p, p ∈ S ↔ p ∈ t.pids
  entry : ∀ a b, (m.entry a b).filter (· ≠ .nan) = t.value a b

variable {t : Table}

theorem Represents.value_of_not_mem (h : m.Represents S t) (hno : ¬ (a ∈ t.pids ∧ b ∈ t.pids)) :
    t.value a b = none := by
  rw [← h.pids, ← h.pids] at hno
  rw [← h.entry, entry_of_not_mem h.square.pids hno]
  rfl

theorem Represents.setPids (h : m.Represents S t) {pids : Set PID} (S' : StdSet PID)
    (hpids : ∀ p, p ∈ S' ↔ p ∈ pids) : (m.setPids S').Represents S' (t.restrict pids) where
  square := h.square.setPids S'
  pids := hpids
  entry a b := by
    rw [h.square.entry_setPids, Table.restrict]
    simp only
    have hset : a ∈ S' ∧ b ∈ S' ↔ a ∈ pids ∧ b ∈ pids := and_congr (hpids a) (hpids b)
    by_cases hab : a ∈ pids ∧ b ∈ pids
    · rw [if_pos hab, if_pos (hset.2 hab), ← h.entry]
      cases m.entry a b with
      | none => rfl
      | some w => by_cases hw : w = .nan <;> simp [hw]
    · rw [if_neg hab, if_neg fun hab' => hab (hset.1 hab')]
      rfl

/-- Changing the PIDs to those that are there changes nothing. -/
theorem Represents.restrict_self (h : m.Represents S t) {pids : Set PID}
    (hsub : t.pids ⊆ pids) (hsame : pids ⊆ t.pids) : t.restrict pids = t := by
  obtain rfl := Set.Subset.antisymm hsame hsub
  obtain ⟨pids, value⟩ := t
  simp only [Table.restrict, Table.mk.injEq, true_and]
  funext a b
  split
  · rfl
  · next hno => exact (h.value_of_not_mem hno).symm

theorem Represents.mem_pidSet (h : m.Represents S t) : p ∈ m.pidSet ↔ p ∈ t.pids := by
  have hset : m.pidSet = toSet (m.pids.map (·.pid)) := by
    rw [pidSet, toSet, List.foldl_map]
  rw [hset, mem_toSet, h.square.pids, map_pid_indexPids, Std.ExtTreeSet.mem_toList, h.pids]

theorem Represents.find_eq_none_iff (h : m.Represents S t) : m.find p = none ↔ p ∉ t.pids := by
  rw [← h.pids]
  constructor
  · intro hnone hp
    obtain ⟨i, hi, rfl⟩ := exists_index hp
    cases hnone.symm.trans (h.square.pids.find hi)
  · exact h.square.pids.find_none

theorem Represents.addPids (h : m.Represents S t) {pids : StdSet PID} {new : Set PID}
    (hnew : ∀ p, p ∈ pids ↔ p ∈ new) :
    ∃ S', (m.addPids pids).Represents S' (t.restrict (t.pids ∪ new)) := by
  have hmap : m.pids.map (·.pid) = S.toList := by rw [h.square.pids, map_pid_indexPids]
  have hdiff : ∀ p, p ∈ toSet (setDifference pids.toList S.toList) ↔ p ∈ new ∧ p ∉ t.pids := by
    intro p
    rw [mem_toSet, mem_setDifference (pairwise_toList pids) (pairwise_toList S),
      Std.ExtTreeSet.mem_toList, Std.ExtTreeSet.mem_toList, hnew, h.pids]
  unfold PIDMatrix.addPids
  simp only [hmap]
  split
  · next hempty =>
    have hsub : new ⊆ t.pids := by
      intro p hp
      by_contra hno
      have hmem := (hdiff p).2 ⟨hp, hno⟩
      rw [Std.ExtTreeSet.isEmpty_iff.1 hempty] at hmem
      exact Std.ExtTreeSet.not_mem_empty hmem
    refine ⟨S, ?_⟩
    rw [h.restrict_self Set.subset_union_left (Set.union_subset subset_rfl hsub)]
    exact h
  · refine ⟨_, h.setPids _ fun p => ?_⟩
    rw [mem_toSet, mem_setUnion, Std.ExtTreeSet.mem_toList, Std.ExtTreeSet.mem_toList, hdiff,
      h.pids, Set.mem_union]
    by_cases hp : p ∈ t.pids <;> simp [hp]

theorem Represents.set (h : m.Represents S t) {src dst : IndexedPID} (hsrc : src ∈ indexPids S)
    (hdst : dst ∈ indexPids S) (v : Double) :
    (m.set src dst v).Represents S (t.assign src.pid dst.pid v) where
  square := by
    refine ⟨h.square.pids, h.square.size, fun {i j w} hw => ?_⟩
    change (m.matrix.insert (toLex (src.index, dst.index)) v)[toLex (i, j)]? = some w at hw
    rw [StdMap.get_insert] at hw
    split at hw
    · next heq =>
      rw [toLex_inj, Prod.mk_inj] at heq
      rw [← heq.1, ← heq.2]
      exact ⟨h.square.index_lt hsrc, h.square.index_lt hdst⟩
    · exact h.square.inside hw
  pids := h.pids
  entry a b := by
    rw [h.square.pids.entry_set hsrc hdst, Table.assign]
    simp only
    split
    · by_cases hv : v = .nan <;> simp [Option.filter, hv]
    · exact h.entry a b

theorem Represents.setByPid (h : m.Represents S t) (s d : PID) (v : Double) :
    (m.setByPid s d v).2.Represents S (t.after (.setByPid s d v)) := by
  rw [Table.after]
  split
  · next hmem =>
    rw [← h.pids, ← h.pids] at hmem
    obtain ⟨i, hi, rfl⟩ := exists_index hmem.1
    obtain ⟨j, hj, rfl⟩ := exists_index hmem.2
    rw [PIDMatrix.setByPid, h.square.pids.find hi, h.square.pids.find hj]
    exact h.set hi hj v
  · next hno =>
    rw [← h.pids, ← h.pids] at hno
    rw [h.square.pids.setByPid_of_not_mem hno]
    exact h

/-- Every call does to the table what it does to the matrix. -/
theorem Represents.after (h : m.Represents S t) {call : Call} (hvalid : m.Valid call) :
    ∃ S', (m.after call).Represents S' (t.after call) := by
  cases call with
  | setPids locs => exact ⟨locs, h.setPids locs fun _ => Iff.rfl⟩
  | setPidsVector locs => exact ⟨toSet locs, h.setPids (toSet locs) fun _ => mem_toSet⟩
  | addPid pid =>
    rw [PIDMatrix.after, addPid, Table.after]
    cases hfind : m.find pid with
    | some i =>
      have hmem : pid ∈ t.pids := by
        by_contra hno
        cases hfind.symm.trans (h.find_eq_none_iff.2 hno)
      refine ⟨S, ?_⟩
      rw [h.restrict_self (Set.subset_insert _ _) (Set.insert_subset hmem subset_rfl)]
      exact h
    | none =>
      refine ⟨_, h.setPids _ fun p => ?_⟩
      rw [StdSet.mem_insert, h.mem_pidSet, Set.mem_insert_iff, eq_comm]
  | addPids pids => exact h.addPids fun _ => Iff.rfl
  | addPidsVector pids => exact h.addPids fun _ => mem_toSet
  | removePid pid =>
    rw [PIDMatrix.after, removePid, Table.after]
    cases hfind : m.find pid with
    | none =>
      have hno := h.find_eq_none_iff.1 hfind
      refine ⟨S, ?_⟩
      have hsub : t.pids ⊆ t.pids \ {pid} := fun p hp =>
        ⟨hp, fun heq => hno (Set.mem_singleton_iff.1 heq ▸ hp)⟩
      rw [h.restrict_self hsub fun p hp => hp.1]
      exact h
    | some i =>
      refine ⟨_, h.setPids _ fun p => ?_⟩
      rw [StdSet.mem_erase, h.mem_pidSet, Set.mem_sdiff, Set.mem_singleton_iff, and_comm, ne_comm]
  | set src dst value =>
    rw [Valid, h.square.pids] at hvalid
    exact ⟨S, h.set hvalid.1 hvalid.2 value⟩
  | setByPid src dst value => exact ⟨S, h.setByPid src dst value⟩
  | copy => exact ⟨S, h⟩

theorem represents_empty : empty.Represents ∅ Table.empty where
  square := ⟨rfl, rfl, fun h => by cases Std.ExtTreeMap.getElem?_empty.symm.trans h⟩
  pids p := ⟨fun h => absurd h Std.ExtTreeSet.not_mem_empty, fun h => absurd h (Set.notMem_empty p)⟩
  entry _ _ := rfl

theorem represents_of_run {calls : List Call} (h : m.Represents S t)
    (hr : Run (fun m call => some (m.after call)) Valid m calls m') :
    ∃ S', m'.Represents S' (calls.foldl Table.after t) := by
  induction hr generalizing S t with
  | nil => exact ⟨S, h⟩
  | cons hvalid hstep _ ih =>
    obtain rfl := Option.some.inj hstep
    obtain ⟨S', h'⟩ := h.after hvalid
    exact ih h'

theorem Represents.getByPid (h : m.Represents S t) :
    m.getByPid s d dflt = (t.value s d).getD dflt := by
  rw [getByPid_eq_filter, h.entry]

/-- What holds of a matrix and the table that it keeps. -/
structure Keeps (m : PIDMatrix) (t : Table) : Prop where
  length : m.pids.length = m.size
  distinct : (m.pids.map (·.pid)).Nodup
  pids : ∀ p, p ∈ m.pids.map (·.pid) ↔ p ∈ t.pids
  index : ∀ (i : Nat) (p : IndexedPID), m.pids[i]? = some p → p.index = i
  inside : ∀ (i j : Nat) (v : Double), m.matrix[toLex (i, j)]? = some v → i < m.size ∧ j < m.size
  value : ∀ s d dflt, m.getByPid s d dflt = (t.value s d).getD dflt
  survive : ∀ (S : StdSet PID) (s d : PID) (dflt : Double), s ∈ S → d ∈ S →
    (m.setPids S).getByPid s d dflt = m.getByPid s d dflt
  fresh : ∀ (S : StdSet PID) (s d : PID) (dflt : Double), ¬ (s ∈ t.pids ∧ d ∈ t.pids) →
    (m.setPids S).getByPid s d dflt = dflt

theorem Represents.keeps (h : m.Represents S t) : m.Keeps t where
  length := by rw [h.square.size, h.square.pids, indexPids, List.length_mapIdx]
  distinct := by
    rw [h.square.pids, map_pid_indexPids]
    exact StdSet.nodup_toList S
  pids p := by
    rw [h.square.pids, map_pid_indexPids, Std.ExtTreeSet.mem_toList, h.pids]
  index i p hp := by
    rw [h.square.pids, indexPids, List.getElem?_mapIdx, Option.map_eq_some_iff] at hp
    obtain ⟨q, -, rfl⟩ := hp
    rfl
  inside _ _ _ hv := h.square.inside hv
  value s d dflt := h.getByPid
  survive S' s d dflt hs hd := by
    have hrestrict : (m.setPids S').Represents S' (t.restrict {p | p ∈ S'}) :=
      h.setPids S' fun _ => Iff.rfl
    have hvalue : (t.restrict {p | p ∈ S'}).value s d = t.value s d := if_pos ⟨hs, hd⟩
    rw [hrestrict.getByPid, h.getByPid, hvalue]
  fresh S' s d dflt hno := by
    have hrestrict : (m.setPids S').Represents S' (t.restrict {p | p ∈ S'}) :=
      h.setPids S' fun _ => Iff.rfl
    rw [hrestrict.getByPid]
    simp only [Table.restrict, h.value_of_not_mem hno, ite_self, Option.getD_none]

/-- After any calls the matrix has a row and a column for each PID of the table that the calls
leave, and the values of that table. -/
theorem keeps_of_run {calls : List Call}
    (hr : Run (fun m call => some (m.after call)) Valid empty calls m) :
    m.Keeps (calls.foldl Table.after Table.empty) := by
  obtain ⟨S, h⟩ := represents_of_run represents_empty hr
  exact h.keeps

/-- A value for two PIDs, and then a third PID and a copy. -/
theorem keeps_of_run_pair : ∃ m : PIDMatrix,
    Run (fun m call => some (m.after call)) Valid empty
      [.addPid ⟨"isp", 1, false⟩, .addPid ⟨"isp", 2, false⟩,
        .setByPid ⟨"isp", 1, false⟩ ⟨"isp", 2, false⟩ 12, .addPidsVector [⟨"isp", 3, false⟩],
        .copy] m ∧
    m.Keeps ([Call.addPid ⟨"isp", 1, false⟩, .addPid ⟨"isp", 2, false⟩,
        .setByPid ⟨"isp", 1, false⟩ ⟨"isp", 2, false⟩ 12, .addPidsVector [⟨"isp", 3, false⟩],
        .copy].foldl Table.after Table.empty) := by
  have hrun : Run (fun m call => some (m.after call)) Valid empty
      [.addPid ⟨"isp", 1, false⟩, .addPid ⟨"isp", 2, false⟩,
        .setByPid ⟨"isp", 1, false⟩ ⟨"isp", 2, false⟩ 12, .addPidsVector [⟨"isp", 3, false⟩],
        .copy] _ :=
    .cons trivial rfl (.cons trivial rfl (.cons trivial rfl (.cons trivial rfl
      (.cons trivial rfl (.nil _)))))
  exact ⟨_, hrun, keeps_of_run hrun⟩

/-- A NaN that was set is not what is looked up. -/
theorem not_keeps_nan : ¬ ∀ (calls : List Call) (m : PIDMatrix) (s d : PID) (v dflt : Double),
    Run (fun m call => some (m.after call)) Valid empty calls m →
    s ∈ m.pids.map (·.pid) → d ∈ m.pids.map (·.pid) →
    (m.setByPid s d v).2.getByPid s d dflt = v := by
  intro h
  let p : PID := ⟨"isp", 1, false⟩
  have hrun : Run (fun m call => some (m.after call)) Valid empty [.setPidsVector [p]]
      (empty.setPids (toSet [p])) := .cons trivial rfl (.nil _)
  have hmem : p ∈ toSet [p] := mem_toSet.2 List.mem_cons_self
  have hpids := hasPids_new empty (toSet [p])
  have hp : p ∈ (empty.setPids (toSet [p])).pids.map (·.pid) := by
    rw [hpids, map_pid_indexPids, Std.ExtTreeSet.mem_toList]
    exact hmem
  have hget := h _ _ p p .nan 5 hrun hp hp
  rw [getByPid_eq_filter, hpids.entry_setByPid hmem hmem, if_pos ⟨rfl, rfl⟩] at hget
  exact absurd hget (by decide)

end Alto.PIDMatrix
