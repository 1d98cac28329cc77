import Mathlib
import Alto.Lib.StdMap

/-!
# The entries of an ordered map as a list

Inserting a new key or erasing one changes the list of the entries by one element, up to the order; and
there is always a new key.
-/

namespace Alto.Lib.StdMap

variable {K V : Type*} [LinearOrder K] {m : StdMap K V} {k : K} {v : V}

theorem nodup_toList (m : StdMap K V) : m.toList.Nodup := by
  refine Std.ExtTreeMap.distinct_keys_toList.imp fun hne heq => hne ?_
  rw [heq]
  exact compare_eq_iff_eq.2 rfl

theorem mem_toList {x : K × V} : x ∈ m.toList ↔ m[x.1]? = some x.2 :=
  Std.ExtTreeMap.mem_toList_iff_getElem?_eq_some

theorem toList_erase_perm (h : m[k]? = some v) : m.toList.Perm ((k, v) :: (m.erase k).toList) := by
  refine (List.perm_ext_iff_of_nodup (nodup_toList m) ?_).2 fun x => ?_
  · refine List.nodup_cons.2 ⟨fun hmem => ?_, nodup_toList _⟩
    rw [mem_toList, get_erase, if_pos rfl] at hmem
    cases hmem
  · rw [List.mem_cons, mem_toList, mem_toList, get_erase, Prod.ext_iff]
    by_cases hk : k = x.1
    · rw [if_pos hk, ← hk, h]
      simp [eq_comm]
    · simp [hk, Ne.symm hk]

theorem toList_insert_perm (h : k ∉ m) : (m.insert k v).toList.Perm ((k, v) :: m.toList) := by
  have herase : (m.insert k v).erase k = m := by
    refine ext_get fun a => ?_
    rw [get_erase, get_insert]
    split
    · next ha => rw [← ha, get_eq_none h]
    · rfl
  have hperm := toList_erase_perm (get_insert.trans (if_pos rfl) : (m.insert k v)[k]? = some v)
  rwa [herase] at hperm

/-- The entry of a key, among the entries. -/
theorem filter_toList (m : StdMap K V) (k : K) :
    m.toList.filter (fun x => x.1 = k) = (m[k]?.map fun v => (k, v)).toList := by
  have hmem : ∀ x, x ∈ m.toList.filter (fun x => x.1 = k) ↔ x.1 = k ∧ m[k]? = some x.2 := by
    intro x
    rw [List.mem_filter, decide_eq_true_eq, mem_toList]
    constructor
    · rintro ⟨hget, rfl⟩
      exact ⟨rfl, hget⟩
    · rintro ⟨rfl, hget⟩
      exact ⟨hget, rfl⟩
  cases hget : m[k]? with
  | none =>
    refine List.filter_eq_nil_iff.2 fun x hx hk => ?_
    have hx := ((hmem x).1 (List.mem_filter.2 ⟨hx, hk⟩)).2
    rw [hget] at hx
    cases hx
  | some v =>
    refine List.perm_singleton.1 ((List.perm_ext_iff_of_nodup ((nodup_toList m).filter _)
      (List.nodup_singleton _)).2 fun x => ?_)
    rw [hmem, hget, Option.some.injEq, List.mem_singleton, Prod.ext_iff]
    exact and_congr_right' eq_comm

end Alto.Lib.StdMap

namespace Alto.Lib.StdSet

variable {K : Type*} [LinearOrder K]

theorem nodup_toList (s : StdSet K) : s.toList.Nodup :=
  Std.ExtTreeSet.distinct_toList.imp fun hne heq => hne (compare_eq_iff_eq.2 heq)

/-- The list of a set with one member. -/
theorem toList_eq_singleton_iff {s : StdSet K} {a : K} :
    s.toList = [a] ↔ ∀ k, k ∈ s ↔ k = a := by
  constructor
  · intro h k
    rw [← Std.ExtTreeSet.mem_toList, h, List.mem_singleton]
  · intro h
    refine List.perm_singleton.1
      ((List.perm_ext_iff_of_nodup (nodup_toList s) (List.nodup_singleton a)).2 fun k => ?_)
    rw [Std.ExtTreeSet.mem_toList, h, List.mem_singleton]

theorem mem_foldl_insert {a : K} (l : List K) (s : StdSet K) :
    a ∈ l.foldl (fun s k => s.insert k) s ↔ a ∈ l ∨ a ∈ s := by
  induction l generalizing s with
  | nil => simp
  | cons k l ih =>
    rw [List.foldl_cons, ih, mem_insert, List.mem_cons, eq_comm (a := a), or_left_comm, or_assoc]

end Alto.Lib.StdSet

namespace Alto.Lib

/-- A key that is not in use, from the keys that are. -/
theorem foldr_max_succ_notMem (l : List Nat) : l.foldr max 0 + 1 ∉ l :=
  fun hmem => Nat.not_succ_le_self _ (List.le_max_of_le' 0 hmem (Nat.le_refl _))

end Alto.Lib
