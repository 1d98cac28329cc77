import Mathlib

/-!
# Agendas

A finite set of items that are due. Serving one takes it off, and may put others on it that are below
it in a well-founded relation; an item that is due already is not put on twice. Serving cannot go on
for ever.
-/

namespace Alto.Lib

open Relation

variable {K : Type*} [DecidableEq K] {r : K → K → Prop} {due due' : Finset K} {k : K}

/-- What serving an item leaves. -/
structure Serves (r : K → K → Prop) (due : Finset K) (k : K) (due' : Finset K) : Prop where
  mem : k ∈ due
  left : ∃ added : Finset K, (∀ a ∈ added, r a k) ∧ due' = due.erase k ∪ added

/-- Serving an item cuts it off and lets smaller ones grow. -/
theorem Serves.cutExpand [Std.Irrefl r] (h : Serves r due k due') :
    CutExpand r due'.val due.val := by
  obtain ⟨added, hbelow, rfl⟩ := h.left
  have hk : k ∉ added := fun hmem => Std.Irrefl.irrefl k (hbelow k hmem)
  refine ⟨(added \ due).val, k, fun a ha => hbelow a (Finset.mem_sdiff.1 ha).1, ?_⟩
  have hunion : due.erase k ∪ added = due.erase k ∪ (added \ due) := by
    ext a
    simp only [Finset.mem_union, Finset.mem_erase, Finset.mem_sdiff]
    by_cases ha : a = k
    · subst ha
      simp [hk]
    · tauto
  have hdisjoint : Disjoint (due.erase k) (added \ due) := by
    rw [Finset.disjoint_left]
    exact fun a ha hout => (Finset.mem_sdiff.1 hout).2 (Finset.mem_of_mem_erase ha)
  rw [hunion, ← Finset.disjUnion_eq_union _ _ hdisjoint, Finset.disjUnion_val, Finset.erase_val,
    add_right_comm, add_comm ((due.val.erase k)), Multiset.singleton_add,
    Multiset.cons_erase h.mem]

/-- There is no endless service. -/
theorem not_endless (hr : WellFounded r) (agenda : ℕ → Finset K) :
    ¬ ∀ n, ∃ k, Serves r (agenda n) k (agenda (n + 1)) := by
  intro hserves
  have : Std.Irrefl r := ⟨fun a ha => hr.irrefl.irrefl a ha⟩
  obtain ⟨s, ⟨n, rfl⟩, hmin⟩ := hr.cutExpand.has_min (Set.range fun n => (agenda n).val) ⟨_, 0, rfl⟩
  obtain ⟨k, hk⟩ := hserves n
  exact hmin _ ⟨n + 1, rfl⟩ hk.cutExpand

end Alto.Lib
