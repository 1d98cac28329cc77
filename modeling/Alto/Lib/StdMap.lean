import Mathlib

/-!
# Ordered maps and sets

`std::map` and `std::set` as the extensional ordered trees of the standard library: two maps are
equal exactly if they have the same entries, and iteration is in key order. `std::map::insert` is
`insertIfNew` and `m[k] = v` is `insert`. The lemmas restate the lookups with equality of keys in
place of the comparison.
-/

namespace Alto.Lib

/-- `std::map<K, V>`. -/
abbrev StdMap (K V : Type*) [LinearOrder K] := Std.ExtTreeMap K V compare

/-- `std::set<K>`. -/
abbrev StdSet (K : Type*) [LinearOrder K] := Std.ExtTreeSet K compare

instance transCmp_compare {K : Type*} [LinearOrder K] :
    Std.TransCmp (compare : K → K → Ordering) :=
  inferInstance

instance transCmp_compare_natPair : Std.TransCmp (compare : Nat ×ₗ Nat → Nat ×ₗ Nat → Ordering) :=
  inferInstance

instance lawfulEqCmp_compare {K : Type*} [LinearOrder K] :
    Std.LawfulEqCmp (compare : K → K → Ordering) :=
  inferInstance

instance {K V : Type*} [LinearOrder K] [DecidableEq V] : DecidableEq (StdMap K V) :=
  inferInstance

namespace StdMap

variable {K V : Type*} [LinearOrder K] {m : StdMap K V} {k a : K} {v : V}

theorem get_insert : (m.insert k v)[a]? = if k = a then some v else m[a]? := by
  rw [Std.ExtTreeMap.getElem?_insert]
  simp only [compare_eq_iff_eq]

theorem get_insertIfNew :
    (m.insertIfNew k v)[a]? = if k = a ∧ m[k]? = none then some v else m[a]? := by
  rw [Std.ExtTreeMap.getElem?_insertIfNew]
  simp only [compare_eq_iff_eq, Std.ExtTreeMap.mem_iff_isSome_getElem?,
    Option.not_isSome_iff_eq_none]

theorem get_erase : (m.erase k)[a]? = if k = a then none else m[a]? := by
  rw [Std.ExtTreeMap.getElem?_erase]
  simp only [compare_eq_iff_eq]

/-- An entry moved to a new key, unless the new key is taken. -/
theorem get_erase_insertIfNew {k' : K} :
    ((m.erase k).insertIfNew k' v)[a]? =
      if k' = a ∧ (k = a ∨ m[a]? = none) then some v else if k = a then none else m[a]? := by
  rw [get_insertIfNew, get_erase, get_erase]
  by_cases hk' : k' = a
  · subst hk'
    by_cases hk : k = k' <;> simp [hk]
  · simp [hk']

theorem mem_iff_get : k ∈ m ↔ ∃ v, m[k]? = some v := by
  rw [Std.ExtTreeMap.mem_iff_isSome_getElem?, Option.isSome_iff_exists]

theorem ext_get {m n : StdMap K V} (h : ∀ k : K, m[k]? = n[k]?) : m = n :=
  Std.ExtTreeMap.ext_getElem? fun {k} => h k

theorem exists_get (h : ¬ m.isEmpty) : ∃ (k : K) (v : V), m[k]? = some v := by
  by_contra hnone
  refine h (Std.ExtTreeMap.isEmpty_iff.2 (ext_get fun k => ?_))
  rw [Std.ExtTreeMap.getElem?_empty, Option.eq_none_iff_forall_ne_some]
  exact fun v hv => hnone ⟨k, v, hv⟩

theorem not_isEmpty_of_mem (h : k ∈ m) : ¬ m.isEmpty := by
  intro hempty
  rw [Std.ExtTreeMap.isEmpty_iff.1 hempty] at h
  exact Std.ExtTreeMap.not_mem_empty h

theorem get_eq_none (h : k ∉ m) : m[k]? = none :=
  Std.ExtTreeMap.getElem?_eq_none h

/-- Inserting the values of a list one after the other: the last one with a key stays. -/
theorem get_foldl_insert {X : Type*} (key : X → K) (val : X → V) (l : List X) (m : StdMap K V)
    (a : K) :
    (∃ x ∈ l, key x = a ∧ (l.foldl (fun m x => m.insert (key x) (val x)) m)[a]? = some (val x)) ∨
      ((∀ x ∈ l, key x ≠ a) ∧ (l.foldl (fun m x => m.insert (key x) (val x)) m)[a]? = m[a]?) := by
  induction l generalizing m with
  | nil => exact Or.inr ⟨by simp, rfl⟩
  | cons x l ih =>
    rcases ih (m.insert (key x) (val x)) with ⟨y, hy, hk, hv⟩ | ⟨hno, hv⟩
    · exact Or.inl ⟨y, List.mem_cons_of_mem x hy, hk, hv⟩
    · rw [get_insert] at hv
      by_cases hx : key x = a
      · exact Or.inl ⟨x, List.mem_cons_self, hx, by simpa [hx] using hv⟩
      · refine Or.inr ⟨fun y hy => ?_, by simpa [hx] using hv⟩
        rcases List.mem_cons.1 hy with rfl | hy
        · exact hx
        · exact hno y hy

/-- A loop over a map that stores a new value at every key. -/
theorem get_foldl_insert_toList {f : K → V → V} (m : StdMap K V) (k : K) :
    (m.toList.foldl (fun n x => n.insert x.1 (f x.1 x.2)) m)[k]? = m[k]?.map (f k) := by
  rcases get_foldl_insert (·.1) (fun x => f x.1 x.2) m.toList m k with ⟨x, hx, rfl, h⟩ | ⟨hno, h⟩
  · rw [h, Std.ExtTreeMap.mem_toList_iff_getElem?_eq_some.1 hx]
    rfl
  · have hnone : m[k]? = none := by
      rw [Option.eq_none_iff_forall_ne_some]
      intro v hv
      exact hno (k, v) (Std.ExtTreeMap.mem_toList_iff_getElem?_eq_some.2 hv) rfl
    rw [h, hnone]
    rfl

end StdMap

namespace StdSet

variable {K : Type*} [LinearOrder K] {s : StdSet K} {k a : K}

theorem mem_insert : a ∈ s.insert k ↔ k = a ∨ a ∈ s := by
  rw [Std.ExtTreeSet.mem_insert, compare_eq_iff_eq]

theorem mem_erase : a ∈ s.erase k ↔ k ≠ a ∧ a ∈ s := by
  rw [Std.ExtTreeSet.mem_erase, ne_eq, ne_eq, compare_eq_iff_eq]

theorem mem_singleton : a ∈ ({k} : StdSet K) ↔ a = k := by
  have h : ({k} : StdSet K) = (∅ : StdSet K).insert k := rfl
  rw [h, mem_insert, or_iff_left Std.ExtTreeSet.not_mem_empty]
  exact eq_comm

end StdSet

end Alto.Lib
