import Mathlib
import Alto.Common.HeapWithDelete

/-!
# The heap with deletion is a priority queue

Every operation keeps the index of `RandomAccessSet` inverse to the vector (`Indexed`) and the
vector in heap order (`Ordered`), and changes the stored elements as its name says: `push_spec`,
`pop_spec`, `erase_spec`. For the order, the loops start from a heap in which one position is out of
place: `UpOrder` says that it may have to move up, and `DownOrder` that it may have to move down.
-/

namespace Alto.Common

variable {T : Type} {less larger : T → T → Bool}

/-- A comparator as the standard library asks for. -/
structure StrictWeakOrder (r : T → T → Bool) : Prop where
  irrefl : ∀ a, ¬ r a a
  trans : ∀ {a b c}, r a b → r b c → r a c
  negTrans : ∀ {a b c}, ¬ r a b → ¬ r b c → ¬ r a c

namespace StrictWeakOrder

variable {a b c : T}

theorem asymm (hr : StrictWeakOrder larger) (h : larger a b) : ¬ larger b a :=
  fun h' => hr.irrefl a (hr.trans h h')

theorem equiv_refl (hr : StrictWeakOrder less) : equiv less a a := by
  simp [equiv, hr.irrefl a]

theorem equiv_symm (h : equiv less a b) : equiv less b a := by
  simp only [equiv, Bool.and_eq_true] at h ⊢
  exact ⟨h.2, h.1⟩

theorem equiv_trans (hr : StrictWeakOrder less) (h₁ : equiv less a b) (h₂ : equiv less b c) :
    equiv less a c := by
  simp only [equiv, Bool.and_eq_true, Bool.not_eq_eq_eq_not, Bool.not_true,
    ← Bool.not_eq_true] at h₁ h₂ ⊢
  exact ⟨hr.negTrans h₁.1 h₂.1, hr.negTrans h₂.2 h₁.2⟩

theorem equiv_congr (hr : StrictWeakOrder less) (h : equiv less a b) :
    equiv less a c = equiv less b c := by
  rw [Bool.eq_iff_iff]
  exact ⟨fun h' => hr.equiv_trans (equiv_symm h) h', fun h' => hr.equiv_trans h h'⟩

end StrictWeakOrder

open StrictWeakOrder

/-! ## The index -/

namespace RandomAccessSet

variable {s : RandomAccessSet T} {i j : Nat} {t u : T}

/-- The index is inverse to the vector. -/
structure Indexed (less : T → T → Bool) (s : RandomAccessSet T) : Prop where
  index_vec : ∀ i < s.size, s.vecIndex (s.vec i) = some i
  vec_index : ∀ t i, s.vecIndex t = some i → i < s.size ∧ equiv less t (s.vec i)
  congr : ∀ t u, equiv less t u → s.vecIndex t = s.vecIndex u

/-- The stored elements. -/
def Mem (s : RandomAccessSet T) (t : T) : Prop :=
  ∃ i < s.size, s.vec i = t

theorem Indexed.eq_of_equiv (h : Indexed less s) (hi : i < s.size) (hj : j < s.size)
    (heq : equiv less (s.vec i) (s.vec j)) : i = j := by
  have hidx := h.congr _ _ heq
  rw [h.index_vec i hi, h.index_vec j hj] at hidx
  exact Option.some.inj hidx

/-- No two elements are duplicates of each other. -/
theorem Indexed.mem_unique (h : Indexed less s) (ht : s.Mem t) (hu : s.Mem u)
    (heq : equiv less t u) : t = u := by
  obtain ⟨i, hi, rfl⟩ := ht
  obtain ⟨j, hj, rfl⟩ := hu
  rw [h.eq_of_equiv hi hj heq]

theorem Indexed.find_none (h : Indexed less s)
    (hnone : s.find t = none) (hu : s.Mem u) : ¬ equiv less t u := by
  obtain ⟨i, hi, rfl⟩ := hu
  intro heq
  have hidx := h.congr _ _ heq
  rw [h.index_vec i hi] at hidx
  cases hnone.symm.trans hidx

theorem indexed_empty [Inhabited T] : Indexed less (default : RandomAccessSet T) where
  index_vec i hi := absurd hi (Nat.not_lt_zero i)
  vec_index _ _ h := nomatch h
  congr _ _ _ := rfl

theorem not_mem_empty [Inhabited T] : ¬ (default : RandomAccessSet T).Mem t := by
  rintro ⟨i, hi, -⟩
  exact Nat.not_lt_zero i hi

/-! ## Swapping -/

@[simp] theorem swap_size : (s.swap less i j).size = s.size := rfl

theorem swap_self (s : RandomAccessSet T) (i : Nat) : (s.swap less i i).vec = s.vec := by
  funext k
  simp only [swap]
  split
  · next h => rw [h]
  · rfl

theorem swap_left (s : RandomAccessSet T) (i j : Nat) : (s.swap less i j).vec i = s.vec j := by
  simp [swap]

theorem swap_right (s : RandomAccessSet T) (i j : Nat) : (s.swap less i j).vec j = s.vec i := by
  simp only [swap]
  split
  · next h => rw [h]
  · simp

theorem swap_other (s : RandomAccessSet T) {i j k : Nat} (hi : k ≠ i) (hj : k ≠ j) :
    (s.swap less i j).vec k = s.vec k := by
  simp [swap, hi, hj]

theorem mem_swap (hi : i < s.size) (hj : j < s.size) : (s.swap less i j).Mem t ↔ s.Mem t := by
  constructor
  · rintro ⟨k, hk, rfl⟩
    by_cases hki : k = i
    · exact ⟨j, hj, by rw [hki, swap_left]⟩
    · by_cases hkj : k = j
      · exact ⟨i, hi, by rw [hkj, swap_right]⟩
      · exact ⟨k, hk, by rw [swap_other s hki hkj]⟩
  · rintro ⟨k, hk, rfl⟩
    by_cases hki : k = i
    · exact ⟨j, hj, by rw [hki, swap_right]⟩
    · by_cases hkj : k = j
      · exact ⟨i, hi, by rw [hkj, swap_left]⟩
      · exact ⟨k, hk, by rw [swap_other s hki hkj]⟩

theorem vecIndex_swap : (s.swap less i j).vecIndex t =
    if equiv less t (s.vec j) then some i
    else if equiv less t (s.vec i) then some j else s.vecIndex t := rfl

theorem Indexed.swap (hr : StrictWeakOrder less) (h : Indexed less s) (hi : i < s.size)
    (hj : j < s.size) : Indexed less (s.swap less i j) where
  index_vec k hk := by
    rw [vecIndex_swap]
    by_cases hki : k = i
    · subst hki
      rw [swap_left, if_pos hr.equiv_refl]
    · by_cases hkj : k = j
      · subst hkj
        rw [swap_right, if_neg fun heq => hki (h.eq_of_equiv hi hk heq).symm,
          if_pos hr.equiv_refl]
      · rw [swap_other s hki hkj, if_neg fun heq => hkj (h.eq_of_equiv hk hj heq),
          if_neg fun heq => hki (h.eq_of_equiv hk hi heq)]
        exact h.index_vec k hk
  vec_index t k hk := by
    rw [vecIndex_swap] at hk
    split at hk
    · next heq =>
      cases hk
      exact ⟨hi, by rwa [swap_left]⟩
    next hnj =>
    split at hk
    · next heq =>
      cases hk
      exact ⟨hj, by rwa [swap_right]⟩
    next hni =>
    obtain ⟨hlt, heq⟩ := h.vec_index t k hk
    refine ⟨hlt, ?_⟩
    rw [swap_other]
    · exact heq
    · rintro rfl
      exact hni heq
    · rintro rfl
      exact hnj heq
  congr t u heq := by
    simp only [vecIndex_swap, hr.equiv_congr heq, h.congr t u heq]

/-! ## The end of the vector -/

theorem pushBack_eq (hnone : s.find t = none) :
    s.pushBack less t =
      { vec := Function.update s.vec s.size t
        size := s.size + 1
        vecIndex := setIndex less s.vecIndex t s.size } := by
  simp [RandomAccessSet.pushBack, hnone]

theorem Indexed.pushBack (hr : StrictWeakOrder less) (h : Indexed less s)
    (hnone : s.find t = none) : Indexed less (s.pushBack less t) := by
  rw [pushBack_eq hnone]
  constructor
  · intro i hi
    rcases Nat.lt_succ_iff_lt_or_eq.1 hi with hlt | rfl
    · have hne : ¬ equiv less (s.vec i) t := fun heq =>
        h.find_none hnone ⟨i, hlt, rfl⟩ (equiv_symm heq)
      simp only [setIndex, Function.update_of_ne hlt.ne, if_neg hne]
      exact h.index_vec i hlt
    · simp [setIndex, hr.equiv_refl]
  · intro u i hu
    simp only [setIndex] at hu
    split at hu
    · next heq =>
      cases hu
      exact ⟨Nat.lt_succ_self _, by simpa using heq⟩
    · obtain ⟨hlt, heq⟩ := h.vec_index u i hu
      exact ⟨Nat.lt_succ_of_lt hlt, by simpa only [Function.update_of_ne hlt.ne] using heq⟩
  · intro u v heq
    simp only [setIndex, hr.equiv_congr heq, h.congr u v heq]

theorem mem_pushBack (hnone : s.find t = none) : (s.pushBack less t).Mem u ↔ s.Mem u ∨ u = t := by
  rw [pushBack_eq hnone]
  constructor
  · rintro ⟨i, hi, rfl⟩
    rcases Nat.lt_succ_iff_lt_or_eq.1 hi with hlt | rfl
    · exact .inl ⟨i, hlt, (Function.update_of_ne hlt.ne _ _).symm⟩
    · exact .inr (Function.update_self _ _ _)
  · rintro (⟨i, hi, rfl⟩ | rfl)
    · exact ⟨i, Nat.lt_succ_of_lt hi, Function.update_of_ne hi.ne _ _⟩
    · exact ⟨s.size, Nat.lt_succ_self _, Function.update_self _ _ _⟩

theorem popBack_eq (hpos : 0 < s.size) :
    s.popBack less =
      { s with
        size := s.size - 1
        vecIndex := fun t =>
          if equiv less t (s.vec (s.size - 1)) then none else s.vecIndex t } := by
  simp [RandomAccessSet.popBack, hpos.ne']

theorem Indexed.popBack (hr : StrictWeakOrder less) (h : Indexed less s) (hpos : 0 < s.size) :
    Indexed less (s.popBack less) := by
  rw [popBack_eq hpos]
  have hlast : s.size - 1 < s.size := by omega
  constructor
  · intro i hi
    have hi' : i < s.size - 1 := hi
    have hne : ¬ equiv less (s.vec i) (s.vec (s.size - 1)) := fun heq =>
      hi'.ne (h.eq_of_equiv (by omega) hlast heq)
    simp only [if_neg hne]
    exact h.index_vec i (by omega)
  · intro t i ht
    simp only at ht
    split at ht
    · cases ht
    next hne =>
    obtain ⟨hlt, heq⟩ := h.vec_index t i ht
    have hi : i ≠ s.size - 1 := by
      rintro rfl
      exact hne heq
    exact ⟨by show i < s.size - 1; omega, heq⟩
  · intro t u heq
    simp only [hr.equiv_congr heq, h.congr t u heq]

theorem mem_popBack (hr : StrictWeakOrder less) (h : Indexed less s) (hpos : 0 < s.size) :
    (s.popBack less).Mem t ↔ s.Mem t ∧ t ≠ s.vec (s.size - 1) := by
  have hlast : s.size - 1 < s.size := by omega
  rw [popBack_eq hpos]
  constructor
  · rintro ⟨i, hi, rfl⟩
    have hi' : i < s.size - 1 := hi
    refine ⟨⟨i, by omega, rfl⟩, fun heq => ?_⟩
    have hequiv : equiv less (s.vec i) (s.vec (s.size - 1)) := by
      rw [show s.vec i = _ from heq]
      exact hr.equiv_refl
    exact hi'.ne (h.eq_of_equiv (by omega) hlast hequiv)
  · rintro ⟨⟨i, hi, rfl⟩, hne⟩
    refine ⟨i, ?_, rfl⟩
    have hi' : i ≠ s.size - 1 := by
      rintro rfl
      exact hne rfl
    show i < s.size - 1
    omega

/-! ## Erasing and listing -/

/-- Erasing in one step. -/
theorem erase_spec (hr : StrictWeakOrder less) (h : Indexed less s) (t : T) :
    Indexed less (s.erase less t) ∧
      ∀ u, (s.erase less t).Mem u ↔ s.Mem u ∧ ¬ equiv less t u := by
  unfold RandomAccessSet.erase
  cases hfind : s.find t with
  | none =>
    refine ⟨h, fun u => ?_⟩
    exact (and_iff_left_of_imp fun hu => h.find_none hfind hu).symm
  | some idx =>
    obtain ⟨hidx, heq⟩ := h.vec_index t idx hfind
    have hpos : 0 < s.size := Nat.zero_lt_of_lt hidx
    have hlast : s.size - 1 < s.size := Nat.sub_lt hpos Nat.one_pos
    have hswap := h.swap hr hidx hlast
    refine ⟨hswap.popBack hr hpos, fun u => ?_⟩
    simp only [mem_popBack hr hswap hpos, mem_swap hidx hlast, swap_size, swap_right]
    refine and_congr_right fun hu => not_congr ⟨?_, fun heq' => ?_⟩
    · rintro rfl
      exact heq
    · exact h.mem_unique hu ⟨idx, hidx, rfl⟩ (hr.equiv_trans (equiv_symm heq') heq)

theorem mem_elements : t ∈ s.elements ↔ s.Mem t := by
  simp [elements, Mem]

theorem Indexed.nodup_elements (hr : StrictWeakOrder less) (h : Indexed less s) :
    s.elements.Nodup := by
  refine List.Nodup.map_on (fun i hi j hj heq => ?_) List.nodup_range
  refine h.eq_of_equiv (List.mem_range.1 hi) (List.mem_range.1 hj) ?_
  rw [heq]
  exact hr.equiv_refl

end RandomAccessSet

open RandomAccessSet

/-! ## Moving up -/

namespace MaxHeapWithDelete

variable {h h' : MaxHeapWithDelete T} {idx i : Nat} {t u : T}

theorem parent_lt (hpos : 0 < i) : parent i < i := by
  unfold parent
  omega

/-- The heap order: no element is larger than the one at its parent. -/
def Ordered (larger : T → T → Bool) (h : MaxHeapWithDelete T) : Prop :=
  ∀ i, 0 < i → i < h.size → ¬ larger (h.vec i) (h.vec (parent i))

/-- The heap order but for the element at `idx`, which may be larger than its parent. -/
structure UpOrder (larger : T → T → Bool) (h : MaxHeapWithDelete T) (idx : Nat) : Prop where
  others : ∀ i, 0 < i → i < h.size → i ≠ idx → ¬ larger (h.vec i) (h.vec (parent i))
  grand : 0 < idx → ∀ i, 0 < i → i < h.size → parent i = idx →
    ¬ larger (h.vec i) (h.vec (parent idx))

theorem UpOrder.swap (hr : StrictWeakOrder larger) (ho : UpOrder larger h idx) (hpos : 0 < idx)
    (hidx : idx < h.size) (hlarger : larger (h.vec idx) (h.vec (parent idx))) :
    UpOrder larger (h.swap less idx (parent idx)) (parent idx) := by
  have hparent := parent_lt hpos
  constructor
  · intro i hi hsize hne
    by_cases hii : i = idx
    · subst hii
      rw [swap_left, swap_right]
      exact hr.asymm hlarger
    rw [swap_other h hii hne]
    by_cases hpi : parent i = idx
    · rw [hpi, swap_left]
      exact ho.grand hpos i hi hsize hpi
    by_cases hpp : parent i = parent idx
    · -- a sibling of the element that has moved up
      have hsib := ho.others i hi hsize hii
      rw [hpp] at hsib ⊢
      rw [swap_right]
      exact fun hlt => hsib (hr.trans hlt hlarger)
    · rw [swap_other h hpi hpp]
      exact ho.others i hi hsize hii
  · intro hpp i hi hsize hpi
    have hup := ho.others (parent idx) hpp (by omega) hparent.ne
    have hpp' := parent_lt hpp
    rw [swap_other h (show parent (parent idx) ≠ idx by omega) hpp'.ne]
    by_cases hii : i = idx
    · subst hii
      rw [swap_left]
      exact hup
    · have hsib := ho.others i hi hsize hii
      rw [hpi] at hsib
      have hip := parent_lt hi
      rw [swap_other h hii (show i ≠ parent idx by omega)]
      exact hr.negTrans hsib hup

/-- What a rearrangement of the heap keeps. -/
structure Rearranged (less : T → T → Bool) (h h' : MaxHeapWithDelete T) : Prop where
  indexed : Indexed less h'
  size : h'.size = h.size
  mem : ∀ t, h'.Mem t ↔ h.Mem t

theorem Rearranged.refl (hx : Indexed less h) : Rearranged less h h :=
  ⟨hx, rfl, fun _ => Iff.rfl⟩

theorem Rearranged.of_swap {i j : Nat} (hr : StrictWeakOrder less) (hx : Indexed less h)
    (hi : i < h.size) (hj : j < h.size)
    (hrest : Indexed less (h.swap less i j) → Rearranged less (h.swap less i j) h') :
    Rearranged less h h' := by
  have hrest := hrest (hx.swap hr hi hj)
  exact ⟨hrest.indexed, hrest.size, fun t => (hrest.mem t).trans (mem_swap hi hj)⟩

theorem percolateUp_rearranged (larger : T → T → Bool) (hr : StrictWeakOrder less) (moved : Bool) (fuel : Nat)
    (hx : Indexed less h) (hidx : idx < h.size) :
    Rearranged less h (percolateUp less larger h idx moved fuel).2 := by
  induction fuel generalizing h idx moved with
  | zero => exact .refl hx
  | succ fuel ih =>
    rw [percolateUp]
    split
    · next hc =>
      have hparent := parent_lt hc.1
      exact .of_swap hr hx hidx (by omega) fun hx' => ih true hx' (by show parent idx < h.size; omega)
    · exact .refl hx

theorem percolateUp_ordered (less : T → T → Bool) (hr : StrictWeakOrder larger) (moved : Bool) {fuel : Nat}
    (hfuel : idx ≤ fuel) (hidx : idx < h.size) (ho : UpOrder larger h idx) :
    Ordered larger (percolateUp less larger h idx moved fuel).2 := by
  induction fuel generalizing h idx moved with
  | zero =>
    intro i hi hsize
    exact ho.others i hi hsize (by omega)
  | succ fuel ih =>
    rw [percolateUp]
    split
    · next hc =>
      have hparent := parent_lt hc.1
      exact ih true (by omega) (by show parent idx < h.size; omega) (ho.swap hr hc.1 hidx hc.2)
    · next hc =>
      intro i hi hsize
      by_cases hii : i = idx
      · subst hii
        exact fun hlarger => hc ⟨hi, hlarger⟩
      · exact ho.others i hi hsize hii

/-- Whether the loop moves the element at all. -/
theorem percolateUp_moved (less : T → T → Bool) {fuel : Nat} (hfuel : idx ≤ fuel) :
    (percolateUp less larger h idx false fuel).1 = true ↔
      0 < idx ∧ larger (h.vec idx) (h.vec (parent idx)) := by
  have hstay : ∀ fuel (h : MaxHeapWithDelete T) idx,
      (percolateUp less larger h idx true fuel).1 = true := by
    intro fuel
    induction fuel with
    | zero => exact fun _ _ => rfl
    | succ fuel ih =>
      intro h idx
      rw [percolateUp]
      split
      · exact ih _ _
      · rfl
  cases fuel with
  | zero =>
    have hzero : idx = 0 := by omega
    simp [percolateUp, hzero]
  | succ fuel =>
    rw [percolateUp]
    split
    · next hc => simp [hstay, hc]
    · next hc => simp only [hc, Bool.false_eq_true]

theorem percolateUp_stays {fuel : Nat}
    (hc : ¬ (0 < idx ∧ larger (h.vec idx) (h.vec (parent idx)))) :
    percolateUp less larger h idx false fuel = (false, h) := by
  cases fuel with
  | zero => rfl
  | succ fuel => rw [percolateUp, if_neg hc]

/-! ## Moving down -/

/-- The heap order but for the element at `idx`, which its children may exceed. -/
structure DownOrder (larger : T → T → Bool) (h : MaxHeapWithDelete T) (idx : Nat) : Prop where
  others : ∀ i, 0 < i → i < h.size → parent i ≠ idx → ¬ larger (h.vec i) (h.vec (parent i))
  grand : 0 < idx → ∀ i, 0 < i → i < h.size → parent i = idx →
    ¬ larger (h.vec i) (h.vec (parent idx))

/-- The position that `percolateDown` compares with: a child that is larger than the element at
`idx` and not exceeded by the other child. -/
theorem largest_cases (hr : StrictWeakOrder larger) (h : MaxHeapWithDelete T) (idx : Nat) :
    (largest larger h idx = idx ∧
      ∀ i, 0 < i → i < h.size → parent i = idx → ¬ larger (h.vec i) (h.vec idx)) ∨
    (0 < largest larger h idx ∧ largest larger h idx < h.size ∧
      parent (largest larger h idx) = idx ∧
      larger (h.vec (largest larger h idx)) (h.vec idx) ∧
      ∀ i, 0 < i → i < h.size → parent i = idx →
        ¬ larger (h.vec i) (h.vec (largest larger h idx))) := by
  have hchild : ∀ i, 0 < i → parent i = idx → i = leftChild idx ∨ i = rightChild idx := by
    intro i hi hp
    unfold parent at hp
    unfold leftChild rightChild
    omega
  have hleft : 0 < leftChild idx ∧ parent (leftChild idx) = idx := by
    unfold parent leftChild
    omega
  have hright : 0 < rightChild idx ∧ parent (rightChild idx) = idx := by
    unfold parent rightChild
    omega
  unfold largest
  by_cases hl : leftChild idx < h.size ∧ larger (h.vec (leftChild idx)) (h.vec idx)
  · simp only [if_pos hl]
    split
    · next hgt =>
      refine .inr ⟨hright.1, hgt.1, hright.2, hr.trans hgt.2 hl.2, ?_⟩
      intro i hi hsize hp
      rcases hchild i hi hp with rfl | rfl
      · exact hr.asymm hgt.2
      · exact hr.irrefl _
    · next hle =>
      refine .inr ⟨hleft.1, hl.1, hleft.2, hl.2, ?_⟩
      intro i hi hsize hp
      rcases hchild i hi hp with rfl | rfl
      · exact hr.irrefl _
      · exact fun hlt => hle ⟨hsize, hlt⟩
  · simp only [if_neg hl]
    split
    · next hgt =>
      refine .inr ⟨hright.1, hgt.1, hright.2, hgt.2, ?_⟩
      intro i hi hsize hp
      rcases hchild i hi hp with rfl | rfl
      · have hnot : ¬ larger (h.vec (leftChild idx)) (h.vec idx) := fun hlt => hl ⟨hsize, hlt⟩
        exact hr.negTrans hnot (hr.asymm hgt.2)
      · exact hr.irrefl _
    · next hle =>
      refine .inl ⟨rfl, ?_⟩
      intro i hi hsize hp
      rcases hchild i hi hp with rfl | rfl
      · exact fun hlt => hl ⟨hsize, hlt⟩
      · exact fun hlt => hle ⟨hsize, hlt⟩

theorem DownOrder.swap (hr : StrictWeakOrder larger) (ho : DownOrder larger h idx) {c : Nat}
    (hc : 0 < c) (hsize : c < h.size) (hp : parent c = idx)
    (hlarger : larger (h.vec c) (h.vec idx))
    (hmax : ∀ i, 0 < i → i < h.size → parent i = idx → ¬ larger (h.vec i) (h.vec c)) :
    DownOrder larger (h.swap less c idx) c := by
  have hlt := parent_lt hc
  constructor
  · intro i hi hisize hpc
    by_cases hic : i = c
    · subst hic
      rw [hp, swap_left, swap_right]
      exact hr.asymm hlarger
    by_cases hii : i = idx
    · subst hii
      have hpi := parent_lt hi
      rw [swap_right, swap_other h (show parent i ≠ c by omega) hpi.ne]
      exact ho.grand hi c hc hsize hp
    rw [swap_other h hic hii]
    by_cases hpi : parent i = idx
    · rw [hpi, swap_right]
      exact hmax i hi hisize hpi
    · rw [swap_other h hpc hpi]
      exact ho.others i hi hisize hpi
  · intro _ i hi hisize hpi
    have hip := parent_lt hi
    rw [hp, swap_right, swap_other h (show i ≠ c by omega) (show i ≠ idx by omega)]
    have hchild := ho.others i hi hisize (by omega)
    rwa [hpi] at hchild

theorem percolateDown_rearranged (hr : StrictWeakOrder less) (hl : StrictWeakOrder larger)
    (idx fuel : Nat) (hx : Indexed less h) :
    Rearranged less h (percolateDown less larger h idx fuel) := by
  induction fuel generalizing h idx with
  | zero => exact .refl hx
  | succ fuel ih =>
    rw [percolateDown]
    rcases largest_cases hl h idx with ⟨heq, -⟩ | ⟨hpos, hsize, hp, -, -⟩
    · simp only [heq, ne_eq, not_true_eq_false, if_false]
      exact .refl hx
    · have hlt := parent_lt hpos
      rw [if_pos (by omega)]
      exact .of_swap hr hx hsize (by omega) fun hx' => ih _ hx'

theorem percolateDown_ordered (less : T → T → Bool) (hr : StrictWeakOrder larger) {fuel : Nat}
    (hfuel : h.size ≤ idx + fuel) (ho : DownOrder larger h idx) :
    Ordered larger (percolateDown less larger h idx fuel) := by
  induction fuel generalizing h idx with
  | zero =>
    intro i hi hsize
    have hsize' : i < h.size := hsize
    have hlt := parent_lt hi
    exact ho.others i hi hsize (by omega)
  | succ fuel ih =>
    rw [percolateDown]
    rcases largest_cases hr h idx with ⟨heq, hmax⟩ | ⟨hpos, hsize, hp, hlarger, hmax⟩
    · simp only [heq, ne_eq, not_true_eq_false, if_false]
      intro i hi hisize
      by_cases hpi : parent i = idx
      · rw [hpi]
        exact hmax i hi hisize hpi
      · exact ho.others i hi hisize hpi
    · have hlt := parent_lt hpos
      rw [if_pos (by omega)]
      apply ih
      · show h.size ≤ _
        omega
      · exact ho.swap hr hpos hsize hp hlarger hmax

/-! ## The operations -/

/-- The invariant of the heap. -/
structure WellFormed (less larger : T → T → Bool) (h : MaxHeapWithDelete T) : Prop where
  indexed : Indexed less h
  ordered : Ordered larger h

theorem wellFormed_empty [Inhabited T] :
    WellFormed less larger (default : MaxHeapWithDelete T) :=
  ⟨indexed_empty, fun i _ hi => absurd hi (Nat.not_lt_zero i)⟩

/-- A rearrangement that restores the order ends in a heap with the same elements. -/
theorem Rearranged.wellFormed (hre : Rearranged less h h') (ho : Ordered larger h') :
    WellFormed less larger h' :=
  ⟨hre.indexed, ho⟩

/-- No element is larger than the one on top. -/
theorem WellFormed.top_max (hr : StrictWeakOrder larger) (hwf : WellFormed less larger h)
    (ht : h.Mem t) : ¬ larger t h.top := by
  obtain ⟨i, hi, rfl⟩ := ht
  induction i using Nat.strongRecOn with
  | ind i ih =>
    rcases Nat.eq_zero_or_pos i with rfl | hpos
    · exact hr.irrefl _
    · have hlt := parent_lt hpos
      exact hr.negTrans (hwf.ordered i hpos hi) (ih (parent i) hlt (by omega))

theorem mem_top (hpos : 0 < h.size) : h.Mem h.top :=
  ⟨0, hpos, rfl⟩

/-- The heap after the element at `idx` has been exchanged with the last one and taken off: if
that one has to move up, the rest is in order below it, and otherwise above it. -/
theorem erase_order (hlarger : StrictWeakOrder larger) (hwf : WellFormed less larger h)
    (hidx : idx < h.size) :
    (0 < idx ∧ larger (((h.swap less idx (h.size - 1)).popBack less).vec idx)
        (((h.swap less idx (h.size - 1)).popBack less).vec (parent idx)) ∧
      idx < ((h.swap less idx (h.size - 1)).popBack less).size ∧
      UpOrder larger ((h.swap less idx (h.size - 1)).popBack less) idx) ∨
    (¬ (0 < idx ∧ larger (((h.swap less idx (h.size - 1)).popBack less).vec idx)
        (((h.swap less idx (h.size - 1)).popBack less).vec (parent idx))) ∧
      DownOrder larger ((h.swap less idx (h.size - 1)).popBack less) idx) := by
  have hpos : 0 < (h.swap less idx (h.size - 1)).size := by
    show 0 < h.size
    omega
  rw [popBack_eq hpos]
  simp only [swap_size]
  -- the pairs that the exchange does not touch
  have hkeep : ∀ i, 0 < i → i < h.size - 1 → i ≠ idx → parent i ≠ idx →
      ¬ larger ((h.swap less idx (h.size - 1)).vec i)
        ((h.swap less idx (h.size - 1)).vec (parent i)) := by
    intro i hi hsize hne hpne
    have hlt := parent_lt hi
    rw [swap_other h hne (show i ≠ h.size - 1 by omega),
      swap_other h hpne (show parent i ≠ h.size - 1 by omega)]
    exact hwf.ordered i hi (by omega)
  have hgrand : 0 < idx → ∀ i, 0 < i → i < h.size - 1 → parent i = idx →
      ¬ larger ((h.swap less idx (h.size - 1)).vec i)
        ((h.swap less idx (h.size - 1)).vec (parent idx)) := by
    intro hidx' i hi hsize hp
    have hlt := parent_lt hi
    have hlt' := parent_lt hidx'
    rw [swap_other h (show i ≠ idx by omega) (show i ≠ h.size - 1 by omega),
      swap_other h hlt'.ne (show parent idx ≠ h.size - 1 by omega)]
    have hi' := hwf.ordered i hi (by omega)
    rw [hp] at hi'
    exact hlarger.negTrans hi' (hwf.ordered idx hidx' hidx)
  by_cases hup : 0 < idx ∧ larger ((h.swap less idx (h.size - 1)).vec idx)
      ((h.swap less idx (h.size - 1)).vec (parent idx))
  · refine .inl ⟨hup.1, hup.2, ?_, ?_⟩
    · show idx < h.size - 1
      by_contra hge
      have hlast : idx = h.size - 1 := by omega
      have hup' := hup.2
      rw [← hlast, swap_self] at hup'
      exact hwf.ordered idx hup.1 hidx hup'
    · constructor
      · intro i hi hsize hne
        by_cases hp : parent i = idx
        · rw [hp]
          exact fun hlt => hgrand hup.1 i hi hsize hp (hlarger.trans hlt hup.2)
        · exact hkeep i hi hsize hne hp
      · exact hgrand
  · refine .inr ⟨hup, ?_, hgrand⟩
    intro i hi hsize hp
    by_cases hne : i = idx
    · subst hne
      exact fun hlt => hup ⟨hi, hlt⟩
    · exact hkeep i hi hsize hne hp

section Operations

variable (hless : StrictWeakOrder less) (hlarger : StrictWeakOrder larger)

include hless hlarger

theorem push_spec (hwf : WellFormed less larger h) (hnone : h.find t = none) :
    ∃ h', push less larger h t = some h' ∧ WellFormed less larger h' ∧
      ∀ u, h'.Mem u ↔ h.Mem u ∨ u = t := by
  have hx : Indexed less (h.pushBack less t) := hwf.indexed.pushBack hless hnone
  have hsize : (h.pushBack less t).size = h.size + 1 := by rw [pushBack_eq hnone]
  have hup : UpOrder larger (h.pushBack less t) h.size := by
    rw [pushBack_eq hnone]
    constructor
    · intro i hi hsize hne
      have hsize' : i < h.size + 1 := hsize
      have hlt := parent_lt hi
      simp only [Function.update_of_ne hne,
        Function.update_of_ne (show parent i ≠ h.size by omega)]
      exact hwf.ordered i hi (by omega)
    · intro _ i hi hsize hp
      have hsize' : i < h.size + 1 := hsize
      have hlt := parent_lt hi
      omega
  have hlt : h.size < (h.pushBack less t).size := by omega
  have hre := percolateUp_rearranged larger hless false h.size hx hlt
  have hord := percolateUp_ordered less hlarger false le_rfl hlt hup
  refine ⟨(percolateUp less larger (h.pushBack less t) h.size false h.size).2, ?_,
    hre.wellFormed hord, fun u => (hre.mem u).trans (mem_pushBack hnone)⟩
  simp only [push, hnone, Option.isSome_none, Bool.false_eq_true, if_false, hsize,
    Nat.add_sub_cancel]

theorem pop_spec (hwf : WellFormed less larger h) (hpos : 0 < h.size) :
    ∃ h', pop less larger h = some h' ∧ WellFormed less larger h' ∧
      ∀ u, h'.Mem u ↔ h.Mem u ∧ u ≠ h.top := by
  have hlast : h.size - 1 < h.size := by omega
  have hx := hwf.indexed.swap hless hpos hlast
  have hx' := hx.popBack hless hpos
  refine ⟨_, by rw [pop, if_neg hpos.ne'], ?_⟩
  have hdown : DownOrder larger ((h.swap less 0 (h.size - 1)).popBack less) 0 := by
    rw [popBack_eq (s := h.swap less 0 (h.size - 1)) hpos]
    constructor
    · intro i hi hsize hne
      have hsize' : i < h.size - 1 := hsize
      have hlt := parent_lt hi
      show ¬ larger ((h.swap less 0 (h.size - 1)).vec i) ((h.swap less 0 (h.size - 1)).vec _)
      rw [swap_other h hi.ne' (show i ≠ h.size - 1 by omega),
        swap_other h hne (show parent i ≠ h.size - 1 by omega)]
      exact hwf.ordered i hi (by omega)
    · intro h0
      exact absurd h0 (lt_irrefl 0)
  have hre := percolateDown_rearranged hless hlarger 0
    ((h.swap less 0 (h.size - 1)).popBack less).size hx'
  refine ⟨hre.wellFormed (percolateDown_ordered less hlarger (by omega) hdown), fun u => ?_⟩
  rw [hre.mem, mem_popBack hless hx hpos, mem_swap hpos hlast]
  show _ ∧ u ≠ (h.swap less 0 (h.size - 1)).vec (h.size - 1) ↔ _
  rw [swap_right]
  rfl

theorem erase_spec (hwf : WellFormed less larger h) (hfind : h.find t = some idx) :
    ∃ h', erase less larger h t = some h' ∧ WellFormed less larger h' ∧
      ∀ u, h'.Mem u ↔ h.Mem u ∧ u ≠ h.vec idx := by
  obtain ⟨hidx, -⟩ := hwf.indexed.vec_index t idx hfind
  have hpos : 0 < h.size := by omega
  have hlast : h.size - 1 < h.size := by omega
  have hx := hwf.indexed.swap hless hidx hlast
  have hx' := hx.popBack hless hpos
  have hmem : ∀ u, ((h.swap less idx (h.size - 1)).popBack less).Mem u ↔
      h.Mem u ∧ u ≠ h.vec idx := by
    intro u
    rw [mem_popBack hless hx hpos, mem_swap hidx hlast]
    show _ ∧ u ≠ (h.swap less idx (h.size - 1)).vec (h.size - 1) ↔ _
    rw [swap_right]
  rw [erase, hfind]
  simp only
  rcases erase_order hlarger hwf hidx with ⟨hidx', hup, hlt, ho⟩ | ⟨hstay, ho⟩
  · have hmoved := (percolateUp_moved less le_rfl).2 ⟨hidx', hup⟩
    have hre := percolateUp_rearranged larger hless false idx hx' hlt
    have hord := percolateUp_ordered less hlarger false le_rfl hlt ho
    split
    · next heq =>
      rw [heq] at hre hord
      exact ⟨_, rfl, hre.wellFormed hord, fun u => (hre.mem u).trans (hmem u)⟩
    · next heq =>
      rw [heq] at hmoved
      cases hmoved
  · rw [percolateUp_stays hstay]
    have hre := percolateDown_rearranged hless hlarger idx
      ((h.swap less idx (h.size - 1)).popBack less).size hx'
    have hord := percolateDown_ordered less hlarger (Nat.le_add_left _ _) ho
    exact ⟨_, rfl, hre.wellFormed hord, fun u => (hre.mem u).trans (hmem u)⟩

end Operations

theorem erase_eq_none (hfind : h.find t = none) : erase less larger h t = none := by
  rw [erase, hfind]

end MaxHeapWithDelete

end Alto.Common
