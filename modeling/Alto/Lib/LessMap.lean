import Mathlib

/-!
# Ordered maps with a comparison of their own

`std::map<K, V>` for a key type with its own `operator<`: the entries in the order of iteration. Two
keys are the same for the map if neither is less than the other. The lemmas assume that this is
equality of a class of the key, at least for the keys that occur; without that the behaviour of a
`std::map` is undefined.
-/

namespace Alto.Lib

/-- The entries of a `std::map`. -/
abbrev LessMap (K V : Type*) := List (K × V)

namespace LessMap

variable {K V R : Type*} (less : K → K → Bool)

/-- Neither key is less than the other. -/
def same (a b : K) : Bool := !less a b && !less b a

/-- `find`, with the value of the entry. -/
def find (m : LessMap K V) (k : K) : Option V :=
  (List.find? (fun e => same less e.1 k) m).map (·.2)

/-- `insert` of a key that is not in the map. -/
def add (m : LessMap K V) (k : K) (v : V) : LessMap K V :=
  m.takeWhile (fun e => less e.1 k) ++ (k, v) :: m.dropWhile (fun e => less e.1 k)

/-- A change of the value of the entry that `find` returns. -/
def modify (f : V → V) (k : K) : LessMap K V → LessMap K V
  | [] => []
  | e :: m => if same less e.1 k then (e.1, f e.2) :: m else e :: modify f k m

/-! ## Lookups by the class of a key -/

variable (cls : K → R)

/-- The value under a class of keys. -/
def under [DecidableEq R] (m : LessMap K V) (r : R) : Option V :=
  (List.find? (fun e => decide (cls e.1 = r)) m).map (·.2)

variable {less cls} {good : K → Prop} {m : LessMap K V} {k : K} {v : V} {r : R} {f : V → V}

theorem add_perm : (add less m k v).Perm ((k, v) :: m) := by
  unfold add
  refine List.perm_middle.trans ?_
  rw [List.takeWhile_append_dropWhile]

theorem mem_add {e : K × V} : e ∈ add less m k v ↔ e = (k, v) ∨ e ∈ m := by
  rw [add_perm.mem_iff, List.mem_cons]

theorem map_key_modify : ((modify less f k m).map fun e => cls e.1) = m.map fun e => cls e.1 := by
  induction m with
  | nil => rfl
  | cons e m ih =>
    rw [modify]
    split
    · rfl
    · rw [List.map_cons, ih, List.map_cons]

theorem mem_modify {e : K × V} (he : e ∈ modify less f k m) : ∃ e' ∈ m, e'.1 = e.1 := by
  have hkey : e.1 ∈ (modify less f k m).map fun e => id e.1 := List.mem_map.2 ⟨e, he, rfl⟩
  rw [map_key_modify] at hkey
  exact List.mem_map.1 hkey

variable [DecidableEq R]

theorem under_cons (e : K × V) :
    under cls (e :: m) r = if cls e.1 = r then some e.2 else under cls m r := by
  unfold under
  rw [List.find?_cons]
  by_cases h : cls e.1 = r <;> simp [h]

theorem under_eq_none (h : ∀ e ∈ m, cls e.1 ≠ r) : under cls m r = none := by
  rw [under, Option.map_eq_none_iff, List.find?_eq_none]
  simpa using h

theorem mem_of_under (h : under cls m r = some v) : ∃ k, (k, v) ∈ m ∧ cls k = r := by
  obtain ⟨e, he, rfl⟩ := Option.map_eq_some_iff.1 h
  exact ⟨e.1, List.mem_of_find?_eq_some he, by simpa using List.find?_some he⟩

/-- If no class occurs twice then every entry is found under its class. -/
theorem under_of_mem (hm : (m.map fun e => cls e.1).Nodup) (h : (k, v) ∈ m) :
    under cls m (cls k) = some v := by
  induction m with
  | nil => cases h
  | cons e m ih =>
    rw [List.map_cons, List.nodup_cons] at hm
    rw [under_cons]
    rcases List.mem_cons.1 h with rfl | h
    · exact if_pos rfl
    · have hne : cls e.1 ≠ cls k := fun heq => hm.1 (List.mem_map.2 ⟨(k, v), h, heq.symm⟩)
      rw [if_neg hne]
      exact ih hm.2 h

theorem nodup_add (hm : (m.map fun e => cls e.1).Nodup) (hk : under cls m (cls k) = none) :
    ((add less m k v).map fun e => cls e.1).Nodup := by
  rw [(add_perm.map _).nodup_iff, List.map_cons, List.nodup_cons]
  refine ⟨fun hmem => ?_, hm⟩
  obtain ⟨e, he, heq⟩ := List.mem_map.1 hmem
  have hfound := under_of_mem hm he
  rw [heq, hk] at hfound
  cases hfound

theorem under_add (hm : (m.map fun e => cls e.1).Nodup) (hk : under cls m (cls k) = none) :
    under cls (add less m k v) r = if cls k = r then some v else under cls m r := by
  have hadd : ((add less m k v).map fun e => cls e.1).Nodup := nodup_add hm hk
  split
  · next h =>
    subst h
    exact under_of_mem hadd (mem_add.2 (.inl rfl))
  · next h =>
    cases hr : under cls m r with
    | some w =>
      obtain ⟨k', hmem, rfl⟩ := mem_of_under hr
      exact under_of_mem hadd (mem_add.2 (.inr hmem))
    | none =>
      refine under_eq_none fun e he heq => ?_
      rcases mem_add.1 he with rfl | he
      · exact h heq
      · rw [← heq, under_of_mem hm he] at hr
        cases hr

variable (hcls : ∀ a b, good a → good b → (same less a b = true ↔ cls a = cls b))

include hcls

theorem find_eq_under (hm : ∀ e ∈ m, good e.1) (hk : good k) :
    find less m k = under cls m (cls k) := by
  induction m with
  | nil => rfl
  | cons e m ih =>
    have hsame := hcls e.1 k (hm e List.mem_cons_self) hk
    have ih := ih fun e he => hm e (List.mem_cons_of_mem _ he)
    rw [under_cons, find, List.find?_cons]
    split
    · next h => rw [if_pos (hsame.1 h)]; rfl
    · next h =>
      rw [if_neg fun heq => by rw [hsame.2 heq] at h; cases h]
      exact ih

theorem under_modify (hm : ∀ e ∈ m, good e.1) (hk : good k) :
    under cls (modify less f k m) r =
      if cls k = r then (under cls m r).map f else under cls m r := by
  induction m with
  | nil => simp [modify, under]
  | cons e m ih =>
    have hsame := hcls e.1 k (hm e List.mem_cons_self) hk
    have ih := ih fun e he => hm e (List.mem_cons_of_mem _ he)
    rw [modify]
    split
    · next h =>
      rw [under_cons, under_cons, hsame.1 h]
      split <;> rfl
    · next h =>
      have hne : cls e.1 ≠ cls k := fun heq => h (hsame.2 heq)
      rw [under_cons, under_cons, ih]
      by_cases hr : cls e.1 = r
      · rw [if_pos hr, if_pos hr, if_neg fun heq => hne (hr.trans heq.symm)]
      · rw [if_neg hr, if_neg hr]

end LessMap

end Alto.Lib
