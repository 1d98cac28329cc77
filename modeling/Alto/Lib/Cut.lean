import Mathlib

/-!
# Bounds that are read one after the other

A reader of open and closed upper bounds keeps one of them and replaces it by every lower one. Its
bound stands for all of them, up to one case: of an open and a closed bound with the same value it
keeps the first. Lower bounds are upper bounds in the dual order.
-/

namespace Alto.Lib

/-- The values below a value, which is one of them if the bound is closed. -/
structure Cut (α : Type) where
  value : α
  closed : Bool

namespace Cut

variable {α β : Type} [LinearOrder α] {side : β → Option (Cut α)} {b c : Cut α} {xs : List β}
  {v : α}

/-- A value within a bound. -/
def Admits (c : Cut α) (v : α) : Prop := v < c.value ∨ c.closed = true ∧ v = c.value

/-- The lower one of two bounds, or the first one of bounds with the same value. -/
def keep (c d : Cut α) : Cut α := if d.value < c.value then d else c

/-- The bound that is kept of those in a list, where not every entry has one. -/
def readAll (side : β → Option (Cut α)) (b : Cut α) (xs : List β) : Cut α :=
  xs.foldl (fun c x => (side x).elim c c.keep) b

/-- An open bound behind a closed one with the same value. -/
def Shadowed (before : List (Cut α)) (c : Cut α) : Prop :=
  c.closed = false ∧ ∃ d ∈ before, d.closed = true ∧ d.value = c.value

theorem Admits.le (h : c.Admits v) : v ≤ c.value := h.elim le_of_lt fun h => h.2.le

theorem admits_of_lt (h : v < c.value) : c.Admits v := .inl h

theorem readAll_concat (side : β → Option (Cut α)) (b : Cut α) (xs : List β) (x : β) :
    readAll side b (xs ++ [x]) = (side x).elim (readAll side b xs) (readAll side b xs).keep := by
  simp [readAll]

theorem readAll_mem (side : β → Option (Cut α)) (b : Cut α) (xs : List β) :
    readAll side b xs ∈ b :: xs.filterMap side := by
  induction xs using List.reverseRecOn with
  | nil => exact List.mem_cons_self
  | append_singleton xs x ih =>
    rw [readAll_concat, List.filterMap_append]
    have ih' : readAll side b xs ∈ b :: (xs.filterMap side ++ [x].filterMap side) := by
      rw [← List.cons_append]
      exact List.mem_append_left _ ih
    cases hx : side x with
    | none => exact ih'
    | some c =>
      rw [Option.elim_some, keep]
      split
      · simp [hx]
      · exact ih'

theorem readAll_le (hc : c ∈ b :: xs.filterMap side) : (readAll side b xs).value ≤ c.value := by
  induction xs using List.reverseRecOn with
  | nil => rw [List.mem_singleton.1 hc]; rfl
  | append_singleton xs x ih =>
    rw [List.filterMap_append, ← List.cons_append, List.mem_append] at hc
    rw [readAll_concat]
    cases hx : side x with
    | none => exact ih (by simpa [hx] using hc)
    | some d =>
      rw [Option.elim_some, keep]
      rcases hc with hc | hc
      · split
        · next hlt => exact hlt.le.trans (ih hc)
        · exact ih hc
      · obtain rfl : c = d := by simpa [hx] using hc
        split
        · exact le_rfl
        · next hlt => exact not_lt.1 hlt

theorem forall_split_concat {P : List β → β → Prop} {x : β} :
    (∀ pre y post, xs ++ [x] = pre ++ y :: post → P pre y) ↔
      (∀ pre y post, xs = pre ++ y :: post → P pre y) ∧ P xs x := by
  constructor
  · intro h
    refine ⟨fun pre y post hxs => h pre y (post ++ [x]) (by rw [hxs]; simp), h xs x [] rfl⟩
  · rintro ⟨h, hx⟩ pre y post hxs
    rcases List.eq_nil_or_concat post with rfl | ⟨post, z, rfl⟩
    · obtain ⟨rfl, hy⟩ := List.append_inj' hxs rfl
      rwa [← List.singleton_inj.1 hy]
    · rw [List.concat_eq_append, ← List.cons_append, ← List.append_assoc] at hxs
      exact h pre y post (List.append_inj' hxs rfl).1

/-- The values within the bound that is kept: those within all bounds, where a shadowed bound does
not count. -/
theorem admits_readAll (side : β → Option (Cut α)) (b : Cut α) (xs : List β) (v : α) :
    (readAll side b xs).Admits v ↔ b.Admits v ∧
      ∀ pre x post, xs = pre ++ x :: post → ∀ c, side x = some c →
        c.Admits v ∨ Shadowed (b :: pre.filterMap side) c := by
  induction xs using List.reverseRecOn with
  | nil => simp [readAll]
  | append_singleton xs x ih =>
    rw [forall_split_concat (P := fun pre x => ∀ c, side x = some c →
      c.Admits v ∨ Shadowed (b :: pre.filterMap side) c), ← and_assoc, ← ih, readAll_concat]
    cases hx : side x with
    | none => simp
    | some c =>
      simp only [Option.elim_some, Option.some.injEq, forall_eq', keep]
      split
      · next hlt =>
        -- all bounds before the new one are above it
        constructor
        · exact fun h => ⟨admits_of_lt (h.le.trans_lt hlt), .inl h⟩
        · rintro ⟨-, h | ⟨-, d, hd, -, hval⟩⟩
          · exact h
          · exact absurd (hval ▸ readAll_le hd) (not_le.2 hlt)
      · next hge =>
        refine ⟨fun h => ⟨h, ?_⟩, fun h => h.1⟩
        rcases (not_lt.1 hge).lt_or_eq with hlt | heq
        · exact .inl (admits_of_lt (h.le.trans_lt hlt))
        rcases h with h | ⟨hclosed, h⟩
        · exact .inl (admits_of_lt (heq ▸ h))
        · cases hc : c.closed with
          | true => exact .inl (.inr ⟨hc, h.trans heq⟩)
          | false => exact .inr ⟨hc, _, readAll_mem side b xs, hclosed, heq⟩

end Cut

end Alto.Lib
