import Mathlib

/-!
# Paths in labelled graphs

A node has at most one successor under each label. A path is the list of labels from a node up to
the root, so that the last step stands first. In an unshared graph two paths never meet; there,
replacing one successor changes nothing but the paths through it.
-/

namespace Alto.Lib

variable {V L : Type*}

/-- The node a path leads to. -/
def resolve (g : V → L → Option V) (r : V) : List L → Option V
  | [] => some r
  | i :: p => (resolve g r p).bind (g · i)

/-- No node is reached along two paths. -/
def Unshared (g : V → L → Option V) (r : V) : Prop :=
  ∀ p q a, resolve g r p = some a → resolve g r q = some a → p = q

variable {g g' : V → L → Option V} {r : V} {p q : List L} {i : L} {a b c : V}

@[simp] theorem resolve_nil : resolve g r [] = some r := rfl

theorem resolve_cons : resolve g r (i :: p) = (resolve g r p).bind (g · i) := rfl

theorem resolve_append (s p : List L) :
    resolve g r (s ++ p) = (resolve g r p).bind (resolve g · s) := by
  induction s with
  | nil => cases h : resolve g r p <;> simp [h]
  | cons i s ih =>
    rw [List.cons_append, resolve_cons, ih]
    cases resolve g r p <;> rfl

/-- The part of a path below its end. -/
theorem resolve_of_suffix {s : List L} (h : resolve g r (s ++ p) = some a) :
    ∃ x, resolve g r p = some x := by
  rw [resolve_append] at h
  exact ⟨_, (Option.bind_eq_some_iff.1 h).choose_spec.1⟩

/-- Graphs that agree on what is reached agree on all paths. -/
theorem resolve_congr (h : ∀ p a, resolve g r p = some a → ∀ i, g' a i = g a i) (p : List L) :
    resolve g' r p = resolve g r p := by
  induction p with
  | nil => rfl
  | cons i p ih =>
    rw [resolve_cons, resolve_cons, ih]
    cases hp : resolve g r p with
    | none => rfl
    | some a => exact h p a hp i

theorem resolve_mem {S : V → Prop} (h0 : S r) (hS : ∀ a i b, S a → g a i = some b → S b) {a : V}
    (h : resolve g r p = some a) : S a := by
  induction p generalizing a with
  | nil =>
    cases h
    exact h0
  | cons i p ih =>
    obtain ⟨x, hx, hxi⟩ := Option.bind_eq_some_iff.1 h
    exact hS x i a (ih hx) hxi

/-! ## Changing the root -/

/-- A root with the successors of another one leads to the same nodes. -/
theorem resolve_root {r' : V} (hr : ∀ i, g' r' i = g r i)
    (h : ∀ p x, p ≠ [] → resolve g r p = some x → ∀ i, g' x i = g x i) (hp : p ≠ []) :
    resolve g' r' p = resolve g r p := by
  induction p with
  | nil => exact absurd rfl hp
  | cons i p ih =>
    cases p with
    | nil => exact hr i
    | cons j p =>
      rw [resolve_cons (p := j :: p), ih (List.cons_ne_nil j p), resolve_cons (p := j :: p)]
      cases hx : resolve g r (j :: p) with
      | none => rfl
      | some x => exact h _ x (List.cons_ne_nil j p) hx i

theorem unshared_root {r' : V} (hu : Unshared g r)
    (h : ∀ p, p ≠ [] → resolve g' r' p = resolve g r p)
    (hr : ∀ p, p ≠ [] → resolve g r p ≠ some r') : Unshared g' r' := by
  intro p q x hp hq
  cases p with
  | nil =>
    cases q with
    | nil => rfl
    | cons j q =>
      cases hp
      exact absurd ((h _ (List.cons_ne_nil j q)).symm.trans hq) (hr _ (List.cons_ne_nil j q))
  | cons i p =>
    rw [h _ (List.cons_ne_nil i p)] at hp
    cases q with
    | nil =>
      cases hq
      exact absurd hp (hr _ (List.cons_ne_nil i p))
    | cons j q =>
      rw [h _ (List.cons_ne_nil j q)] at hq
      exact hu _ _ x hp hq

/-! ## Replacing a successor -/

/-- A node is replaced by one with the same successors. -/
theorem resolve_replace [DecidableEq L] (hu : Unshared g r) (hq : resolve g r q = some b)
    (ha : g b i = some a) (hother : ∀ p x, resolve g r p = some x → x ≠ b → ∀ j, g' x j = g x j)
    (hb : ∀ j, j ≠ i → g' b j = g b j) (hbi : g' b i = some c) (hc : ∀ j, g' c j = g a j)
    (p : List L) :
    resolve g' r p = if p = i :: q then some c else resolve g r p := by
  induction p with
  | nil => simp
  | cons j p ih =>
    rw [resolve_cons, ih, resolve_cons]
    by_cases hp : p = i :: q
    · have hq' : resolve g r (i :: q) = some a := by simp [resolve_cons, hq, ha]
      simp [hp, hq', hc]
    · rw [if_neg hp]
      cases hx : resolve g r p with
      | none =>
        have hne : p ≠ q := by
          rintro rfl
          simp [hx] at hq
        simp [hne]
      | some x =>
        by_cases hxb : x = b
        · subst hxb
          obtain rfl := hu p q x hx hq
          by_cases hj : j = i
          · simp [hj, hbi]
          · simp [hj, hb j hj]
        · have hne : p ≠ q := by
            rintro rfl
            exact hxb (Option.some.inj (hx.symm.trans hq))
          simp [hne, hother p x hx hxb]

theorem unshared_replace [DecidableEq L] (hu : Unshared g r) (hc : ∀ p, resolve g r p ≠ some c)
    (h : ∀ p, resolve g' r p = if p = i :: q then some c else resolve g r p) : Unshared g' r := by
  intro p p' x hp hp'
  rw [h] at hp hp'
  split at hp <;> split at hp'
  · simp_all
  · cases hp
    exact absurd hp' (hc p')
  · cases hp'
    exact absurd hp (hc p)
  · exact hu p p' x hp hp'

/-- A successor is set: the paths that do not go through it stay. -/
theorem resolve_set (hu : Unshared g r) (hq : resolve g r q = some b)
    (hother : ∀ p x, resolve g r p = some x → x ≠ b → ∀ j, g' x j = g x j)
    (hb : ∀ j, j ≠ i → g' b j = g b j) (hp : ¬ (i :: q) <:+ p) :
    resolve g' r p = resolve g r p := by
  induction p with
  | nil => rfl
  | cons j p ih =>
    have hp' : ¬ (i :: q) <:+ p := fun h => hp (h.trans (List.suffix_cons j p))
    rw [resolve_cons, resolve_cons, ih hp']
    cases hx : resolve g r p with
    | none => rfl
    | some x =>
      by_cases hxb : x = b
      · subst hxb
        obtain rfl := hu p q x hx hq
        exact hb j fun hj => hp (hj ▸ List.suffix_rfl)
      · exact hother p x hx hxb j

theorem not_suffix_self : ¬ (i :: q) <:+ q := by
  intro h
  have := h.length_le
  simp only [List.length_cons] at this
  omega

/-- A successor is set: the paths through it start at the new successor. -/
theorem resolve_set_below (hq : resolve g' r q = some b) (s : List L) :
    resolve g' r (s ++ i :: q) = (g' b i).bind (resolve g' · s) := by
  rw [resolve_append, resolve_cons, hq]
  rfl

theorem unshared_set (hu : Unshared g r)
    (hother : ∀ p, ¬ (i :: q) <:+ p → resolve g' r p = resolve g r p)
    (hnew : ∀ s a, resolve g' r (s ++ i :: q) = some a → ∀ p, resolve g r p ≠ some a)
    (hinj : ∀ s s' a, resolve g' r (s ++ i :: q) = some a → resolve g' r (s' ++ i :: q) = some a →
      s = s') : Unshared g' r := by
  intro p p' x hp hp'
  by_cases hs : (i :: q) <:+ p <;> by_cases hs' : (i :: q) <:+ p'
  · obtain ⟨s, rfl⟩ := hs
    obtain ⟨s', rfl⟩ := hs'
    rw [hinj s s' x hp hp']
  · obtain ⟨s, rfl⟩ := hs
    rw [hother p' hs'] at hp'
    exact absurd hp' (hnew s x hp p')
  · obtain ⟨s', rfl⟩ := hs'
    rw [hother p hs] at hp
    exact absurd hp (hnew s' x hp' p)
  · rw [hother p hs] at hp
    rw [hother p' hs'] at hp'
    exact hu p p' x hp hp'

/-! ## Reachable nodes -/

/-- The nodes on a path, from its end to the root, are different: an unshared graph on `n` nodes
has no path of `n` steps. -/
theorem length_lt_of_unshared [DecidableEq V] {n : Finset V} (hu : Unshared g r)
    (hn : ∀ p a, resolve g r p = some a → a ∈ n) (h : resolve g r p = some a) :
    p.length < n.card := by
  have hdef : ∀ k, ∃ x, resolve g r (p.drop k) = some x := by
    intro k
    rw [← List.take_append_drop k p] at h
    exact resolve_of_suffix h
  choose f hf using hdef
  have hinj : Set.InjOn f (Finset.range (p.length + 1)) := by
    intro k hk l hl hkl
    have heq := hu _ _ _ (hf k) (hkl ▸ hf l)
    have hlen : (p.drop k).length = (p.drop l).length := by rw [heq]
    simp only [List.length_drop] at hlen
    have hk' : k < p.length + 1 := by simpa using hk
    have hl' : l < p.length + 1 := by simpa using hl
    omega
  have hsub : ∀ k ∈ Finset.range (p.length + 1), f k ∈ n := fun k _ => hn _ _ (hf k)
  have hcard := Finset.card_le_card_of_injOn f hsub hinj
  rw [Finset.card_range] at hcard
  omega

/-- The nodes reached in at most `n` steps from those of the list, level by level. -/
def levels (succs : V → List V) : Nat → List V → List V
  | 0, _ => []
  | n + 1, l => l ++ levels succs n (l.flatMap succs)

theorem mem_levels_of_resolve {succs : V → List V} (hs : ∀ a i b, g a i = some b → b ∈ succs a)
    {n : Nat} {l : List V} (hr : r ∈ l) (h : resolve g r p = some a) (hn : p.length < n) :
    a ∈ levels succs n l := by
  induction n generalizing l r p with
  | zero => omega
  | succ n ih =>
    rcases List.eq_nil_or_concat p with rfl | ⟨p, i, rfl⟩
    · cases h
      exact List.mem_append_left _ hr
    · rw [List.concat_eq_append, resolve_append] at h
      obtain ⟨x, hx, hxa⟩ := Option.bind_eq_some_iff.1 h
      have hmem : x ∈ l.flatMap succs :=
        List.mem_flatMap.2 ⟨r, hr, hs r i x (by simpa [resolve_cons] using hx)⟩
      refine List.mem_append_right _ (ih hmem hxa ?_)
      simp only [List.concat_eq_append, List.length_append, List.length_cons,
        List.length_nil] at hn
      omega

theorem resolve_of_mem_levels {succs : V → List V}
    (hs : ∀ a b, b ∈ succs a → ∃ i, g a i = some b) {n : Nat} {l : List V}
    (hl : ∀ x ∈ l, ∃ p, resolve g r p = some x) (h : a ∈ levels succs n l) :
    ∃ p, resolve g r p = some a := by
  induction n generalizing l with
  | zero => cases h
  | succ n ih =>
    rcases List.mem_append.1 h with h | h
    · exact hl a h
    · refine ih (fun x hx => ?_) h
      obtain ⟨y, hy, hyx⟩ := List.mem_flatMap.1 hx
      obtain ⟨p, hp⟩ := hl y hy
      obtain ⟨i, hi⟩ := hs y x hyx
      exact ⟨i :: p, by simp [resolve_cons, hp, hi]⟩

end Alto.Lib
