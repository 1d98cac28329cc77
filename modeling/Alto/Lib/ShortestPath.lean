import Mathlib

/-!
# Predecessor maps

A search from a source leaves a predecessor at every vertex: the vertex itself if it is the source or
was not reached, and the vertex before it on the path from the source otherwise. Following the
predecessors gives the path backwards. If no edge can be relaxed any more, the path is a shortest one.
-/

namespace Alto.Lib

open Relation

variable {V W : Type*}

/-! ## Following the predecessors -/

/-- The vertices behind `v` on the way back to the source. -/
def backTo [DecidableEq V] (pred : V → V) (src : V) : Nat → V → Option (List V)
  | 0, v => if v = src then some [] else none
  | n + 1, v => if v = src then some [] else (backTo pred src n (pred v)).map (pred v :: ·)

section

variable {pred : V → V} {src v : V} {n fuel : Nat} {S : Finset V}

theorem backTo_of_iterate [DecidableEq V] (h : pred^[n] v = src) (hn : n ≤ fuel) :
    ∃ l, backTo pred src fuel v = some l := by
  induction fuel generalizing n v with
  | zero =>
    obtain rfl : n = 0 := Nat.le_zero.1 hn
    exact ⟨[], if_pos h⟩
  | succ fuel ih =>
    by_cases hv : v = src
    · exact ⟨[], if_pos hv⟩
    · cases n with
      | zero => exact absurd h hv
      | succ n =>
        obtain ⟨l, hl⟩ := ih (by rwa [Function.iterate_succ_apply] at h) (Nat.le_of_succ_le_succ hn)
        exact ⟨pred v :: l, by rw [backTo, if_neg hv, hl]; rfl⟩

/-- The way back stays in a set that is closed under predecessors. -/
theorem mem_of_backTo [DecidableEq V] {P : V → Prop} (hP : ∀ u, P u → P (pred u)) (hv : P v)
    {l : List V} (hl : backTo pred src fuel v = some l) : ∀ u ∈ l, P u := by
  induction fuel generalizing v l with
  | zero =>
    rw [backTo] at hl
    split at hl
    · cases hl
      simp
    · cases hl
  | succ fuel ih =>
    rw [backTo] at hl
    split at hl
    · cases hl
      simp
    · obtain ⟨l', hl', rfl⟩ := Option.map_eq_some_iff.1 hl
      intro u hu
      rcases List.mem_cons.1 hu with rfl | hu
      · exact hP v hv
      · exact ih (hP v hv) hl' u hu

/-- In a finite set the way back is shorter than the set is large. -/
theorem exists_iterate_lt_card (hS : ∀ u ∈ S, pred u ∈ S) (hv : v ∈ S)
    (h : ∃ n, pred^[n] v = src) : ∃ n < S.card, pred^[n] v = src := by
  classical
  have hmem : ∀ i, pred^[i] v ∈ S := by
    intro i
    induction i with
    | zero => exact hv
    | succ i ih =>
      rw [Function.iterate_succ_apply']
      exact hS _ ih
  -- the first visit of the source: before it, no vertex is visited twice
  have hfirst := Nat.find_spec h
  have hmin : ∀ i < Nat.find h, pred^[i] v ≠ src := fun i hi => Nat.find_min h hi
  generalize Nat.find h = n at hfirst hmin
  refine ⟨n, ?_, hfirst⟩
  have hinj : Set.InjOn (fun i => pred^[i] v) (Finset.range (n + 1)) := by
    have hlt : ∀ i j, i < j → j ≤ n → pred^[i] v ≠ pred^[j] v := by
      intro i j hij hj heq
      refine hmin (n - j + i) (by omega) ?_
      rw [Function.iterate_add_apply, heq, ← Function.iterate_add_apply]
      rwa [Nat.sub_add_cancel hj]
    intro i hi j hj heq
    simp only [Finset.coe_range, Set.mem_Iio] at hi hj
    rcases Nat.lt_trichotomy i j with hij | rfl | hji
    · exact absurd heq (hlt i j hij (by omega))
    · rfl
    · exact absurd heq.symm (hlt j i hji (by omega))
  have hcard := Finset.card_le_card_of_injOn (fun i => pred^[i] v) (fun i _ => hmem i) hinj
  rw [Finset.card_range] at hcard
  exact hcard

theorem backTo_card [DecidableEq V] (hS : ∀ u ∈ S, pred u ∈ S) (hv : v ∈ S)
    (h : ∃ n, pred^[n] v = src) (hfuel : S.card ≤ fuel) : ∃ l, backTo pred src fuel v = some l := by
  obtain ⟨n, hn, hsrc⟩ := exists_iterate_lt_card hS hv h
  exact backTo_of_iterate hsrc (hn.le.trans hfuel)

end

/-! ## Trees of paths from the source -/

/-- The predecessors are a tree of edges: the source and the unreached vertices are their own
predecessors, and all other ones lead back to the source along edges. -/
structure PredTree (E : V → V → Prop) (src : V) (pred : V → V) : Prop where
  root : pred src = src
  unreached : ∀ v, ¬ ReflTransGen E src v → pred v = v
  edge : ∀ v, ReflTransGen E src v → v ≠ src → E (pred v) v
  back : ∀ v, ReflTransGen E src v → ∃ n, pred^[n] v = src

namespace PredTree

variable {E : V → V → Prop} {src v : V} {pred : V → V} {fuel : Nat} {l : List V}

theorem reach_pred (h : PredTree E src pred) (hv : ReflTransGen E src v) :
    ReflTransGen E src (pred v) := by
  by_contra hnot
  obtain ⟨n, hn⟩ := h.back v hv
  cases n with
  | zero =>
    obtain rfl : v = src := hn
    rw [h.root] at hnot
    exact hnot hv
  | succ n =>
    rw [Function.iterate_succ_apply, Function.iterate_fixed (h.unreached _ hnot)] at hn
    exact hnot (hn ▸ .refl)

/-- A vertex is its own predecessor exactly if it is the source or was not reached. -/
theorem pred_eq_self_iff (h : PredTree E src pred) :
    pred v = v ↔ v = src ∨ ¬ ReflTransGen E src v := by
  constructor
  · intro heq
    by_cases hv : ReflTransGen E src v
    · obtain ⟨n, hn⟩ := h.back v hv
      rw [Function.iterate_fixed heq] at hn
      exact .inl hn
    · exact .inr hv
  · rintro (rfl | hv)
    · exact h.root
    · exact h.unreached v hv

/-- The way back, turned around, is a path from the source. -/
theorem path [DecidableEq V] (h : PredTree E src pred) (hv : ReflTransGen E src v)
    (hl : backTo pred src fuel v = some l) :
    (v :: l).reverse.head? = some src ∧ (v :: l).reverse.getLast? = some v ∧
      (v :: l).reverse.IsChain E := by
  induction fuel generalizing v l with
  | zero =>
    rw [backTo] at hl
    split at hl
    · next hsrc => cases hl; simp [hsrc]
    · cases hl
  | succ fuel ih =>
    rw [backTo] at hl
    split at hl
    · next hsrc => cases hl; simp [hsrc]
    · next hsrc =>
      obtain ⟨l', hl', rfl⟩ := Option.map_eq_some_iff.1 hl
      obtain ⟨hhead, hlast, hchain⟩ := ih (h.reach_pred hv) hl'
      rw [List.reverse_cons (a := v)]
      refine ⟨?_, by simp, ?_⟩
      · rw [List.head?_append, hhead]
        rfl
      · refine List.isChain_append.2 ⟨hchain, List.isChain_singleton v, fun x hx y hy => ?_⟩
        rw [hlast] at hx
        obtain rfl : pred v = x := by simpa using hx
        obtain rfl : v = y := by simpa using hy
        exact h.edge v hv hsrc

end PredTree

/-! ## Shortest paths -/

/-- The sum of the weights along a path. -/
def pathWeight [Add W] [Zero W] (w : V → V → W) : List V → W
  | [] => 0
  | [_] => 0
  | u :: v :: p => w u v + pathWeight w (v :: p)

theorem pathWeight_append [AddMonoid W] {w : V → V → W} (p : List V) (u v : V)
    (h : p.getLast? = some u) : pathWeight w (p ++ [v]) = pathWeight w p + w u v := by
  induction p with
  | nil => cases h
  | cons x p ih =>
    cases p with
    | nil =>
      obtain rfl : x = u := by simpa using h
      simp [pathWeight]
    | cons y p =>
      rw [List.getLast?_cons_cons] at h
      have ih := ih h
      rw [List.cons_append, List.cons_append, pathWeight, pathWeight, ← List.cons_append, ih,
        add_assoc]

/-- The predecessors are a tree of shortest paths: with the distances along the tree, no edge from a
reached vertex can be relaxed. -/
structure ShortestPathTree [Add W] [Zero W] [LE W] (E : V → V → Prop) (w : V → V → W) (src : V)
    (pred : V → V) : Prop extends PredTree E src pred where
  relaxed : ∃ d : V → W, d src = 0 ∧
    (∀ v, ReflTransGen E src v → v ≠ src → d v = d (pred v) + w (pred v) v) ∧
    ∀ u v, ReflTransGen E src u → E u v → d v ≤ d u + w u v

namespace ShortestPathTree

variable [AddCommMonoid W] [PartialOrder W] [IsOrderedAddMonoid W]
variable {E : V → V → Prop} {w : V → V → W} {src v : V} {pred : V → V} {fuel : Nat} {l p : List V}

/-- The way back, turned around, is not heavier than any path from the source. -/
theorem pathWeight_le [DecidableEq V] (h : ShortestPathTree E w src pred)
    (hv : ReflTransGen E src v) (hl : backTo pred src fuel v = some l) (hhead : p.head? = some src)
    (hlast : p.getLast? = some v) (hp : p.IsChain E) :
    pathWeight w (v :: l).reverse ≤ pathWeight w p := by
  obtain ⟨d, hsrc, htree, hrelaxed⟩ := h.relaxed
  -- the tree path to a vertex weighs its distance
  have hdist : ∀ (fuel : Nat) (v : V) (l : List V), ReflTransGen E src v →
      backTo pred src fuel v = some l → pathWeight w (v :: l).reverse = d v := by
    intro fuel
    induction fuel with
    | zero =>
      intro v l hv hl
      rw [backTo] at hl
      split at hl
      · next heq => cases hl; simp [pathWeight, heq, hsrc]
      · cases hl
    | succ fuel ih =>
      intro v l hv hl
      rw [backTo] at hl
      split at hl
      · next heq => cases hl; simp [pathWeight, heq, hsrc]
      · next hne =>
        obtain ⟨l', hl', rfl⟩ := Option.map_eq_some_iff.1 hl
        have hpath := h.toPredTree.path (h.reach_pred hv) hl'
        rw [List.reverse_cons (a := v), pathWeight_append _ (pred v) v hpath.2.1,
          ih (pred v) l' (h.reach_pred hv) hl', htree v hv hne]
  -- and no path from the source weighs less than the distance of its end
  have hle : ∀ (p : List V) (u v : V), ReflTransGen E src u → p.head? = some u →
      p.getLast? = some v → p.IsChain E → d v ≤ d u + pathWeight w p := by
    intro p
    induction p with
    | nil => intro u v _ hu; cases hu
    | cons x p ih =>
      intro u v hreach hu hv hp
      obtain rfl : x = u := by simpa using hu
      cases p with
      | nil =>
        obtain rfl : x = v := by simpa using hv
        simp [pathWeight]
      | cons y p =>
        obtain ⟨hxy, hp⟩ := List.isChain_cons_cons.1 hp
        rw [List.getLast?_cons_cons] at hv
        calc d v ≤ d y + pathWeight w (y :: p) := ih y v (hreach.tail hxy) rfl hv hp
          _ ≤ d x + w x y + pathWeight w (y :: p) := by
            exact add_le_add_left (hrelaxed x y hreach hxy) _
          _ = d x + pathWeight w (x :: y :: p) := by rw [pathWeight, add_assoc]
  rw [hdist fuel v l hv hl]
  have := hle p src v .refl hhead hlast hp
  rwa [hsrc, zero_add] at this

end ShortestPathTree

end Alto.Lib
