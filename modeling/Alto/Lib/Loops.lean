import Mathlib

/-!
# Loops that can fail

Invariants of `List.foldlM` in `Except`. An invariant speaks of the elements that were handled, of the
ones that are left and of the state. `foldlM_ok` is for a loop that did not fail, `foldlM_total` for
one whose rounds never fail. In `Option`, a loop fails where one of its elements does
(`isSome_foldlM`).
-/

namespace Alto.Lib

variable {S A E : Type*} {f : S → A → Except E S}

theorem foldlM_ok {P : List A → List A → S → Prop}
    (hstep : ∀ done a rest s s', P done (a :: rest) s → f s a = .ok s' → P (done ++ [a]) rest s')
    {l : List A} {s s' : S} (h : P [] l s) (hrun : l.foldlM f s = .ok s') : P l [] s' := by
  have hloop : ∀ (rest done : List A) (s : S), P done rest s → rest.foldlM f s = .ok s' →
      P (done ++ rest) [] s' := by
    intro rest
    induction rest with
    | nil =>
      intro done s h hrun
      obtain rfl : s = s' := by simpa [pure, Except.pure] using hrun
      simpa using h
    | cons a rest ih =>
      intro done s h hrun
      rw [List.foldlM_cons] at hrun
      cases hf : f s a with
      | error e =>
        rw [hf] at hrun
        cases hrun
      | ok t =>
        rw [hf] at hrun
        have hnext := ih (done ++ [a]) t (hstep done a rest s t h hf) hrun
        rwa [List.append_assoc] at hnext
  exact hloop l [] s h hrun

theorem foldlM_total {P : List A → List A → S → Prop}
    (hstep : ∀ done a rest s, P done (a :: rest) s → ∃ s', f s a = .ok s' ∧ P (done ++ [a]) rest s')
    {l : List A} {s : S} (h : P [] l s) : ∃ s', l.foldlM f s = .ok s' ∧ P l [] s' := by
  have hloop : ∀ (rest done : List A) (s : S), P done rest s →
      ∃ s', rest.foldlM f s = .ok s' ∧ P (done ++ rest) [] s' := by
    intro rest
    induction rest with
    | nil =>
      intro done s h
      exact ⟨s, rfl, by simpa using h⟩
    | cons a rest ih =>
      intro done s h
      obtain ⟨t, hf, ht⟩ := hstep done a rest s h
      obtain ⟨s', hrun, hs'⟩ := ih (done ++ [a]) t ht
      refine ⟨s', ?_, by simpa using hs'⟩
      rw [List.foldlM_cons, hf]
      exact hrun
  exact hloop l [] s h

/-- A loop that cannot fail. -/
theorem foldl_inv {g : S → A → S} {P : List A → List A → S → Prop}
    (hstep : ∀ done a rest s, P done (a :: rest) s → P (done ++ [a]) rest (g s a))
    {l : List A} {s : S} (h : P [] l s) : P l [] (l.foldl g s) := by
  have hloop : ∀ (rest done : List A) (s : S), P done rest s →
      P (done ++ rest) [] (rest.foldl g s) := by
    intro rest
    induction rest with
    | nil => exact fun done s h => by simpa using h
    | cons a rest ih =>
      intro done s h
      simpa using ih (done ++ [a]) (g s a) (hstep done a rest s h)
  exact hloop l [] s h

/-- The rounds of a loop that need no state to be checked. -/
theorem foldlM_keeps {P : S → Prop} (hstep : ∀ a s s', P s → f s a = .ok s' → P s') {l : List A}
    {s s' : S} (h : P s) (hrun : l.foldlM f s = .ok s') : P s' :=
  foldlM_ok (P := fun _ _ s => P s) (fun _ a _ s s' => hstep a s s') h hrun

/-- Whether a round fails depends on its element. -/
theorem isSome_foldlM {g : S → A → Option S} {P : A → Prop}
    (hg : ∀ s a, (g s a).isSome = true ↔ P a) (l : List A) (s : S) :
    (l.foldlM g s).isSome = true ↔ ∀ a ∈ l, P a := by
  induction l generalizing s with
  | nil => exact iff_of_true rfl nofun
  | cons a l ih =>
    rw [List.foldlM_cons, List.forall_mem_cons, ← hg s a]
    cases g s a with
    | none => exact iff_of_false nofun fun h => absurd h.1 nofun
    | some s' => exact (ih s').trans (and_iff_right rfl).symm

/-- What every round keeps. -/
theorem keeps_foldlM {g : S → A → Option S} {P : S → Prop}
    (hstep : ∀ a s s', P s → g s a = some s' → P s') {l : List A} {s s' : S} (h : P s)
    (hrun : l.foldlM g s = some s') : P s' := by
  induction l generalizing s with
  | nil => exact Option.some.inj hrun ▸ h
  | cons a l ih =>
    rw [List.foldlM_cons] at hrun
    obtain ⟨t, ht, hrest⟩ := Option.bind_eq_some_iff.1 hrun
    exact ih (hstep a s t h ht) hrest

theorem mapM_total {B : Type*} {g : A → Except E B} {l : List A} (h : ∀ a ∈ l, ∃ b, g a = .ok b) :
    ∃ bs, l.mapM g = .ok bs := by
  induction l with
  | nil => exact ⟨[], rfl⟩
  | cons a l ih =>
    obtain ⟨b, hb⟩ := h a List.mem_cons_self
    obtain ⟨bs, hbs⟩ := ih fun x hx => h x (List.mem_cons_of_mem _ hx)
    refine ⟨b :: bs, ?_⟩
    rw [List.mapM_cons, hb, hbs]
    rfl

/-- The results of a loop that did not fail. -/
theorem mem_mapM_ok {B : Type*} {g : A → Except E B} {l : List A} {ys : List B}
    (h : l.mapM g = .ok ys) (y : B) : y ∈ ys ↔ ∃ a ∈ l, g a = .ok y := by
  induction l generalizing ys with
  | nil =>
    obtain rfl : [] = ys := by simpa [pure, Except.pure] using h
    simp
  | cons a l ih =>
    rw [List.mapM_cons] at h
    cases ha : g a with
    | error e =>
      rw [ha] at h
      cases h
    | ok b =>
      cases hl : l.mapM g with
      | error e =>
        rw [ha, hl] at h
        cases h
      | ok bs =>
        rw [ha, hl] at h
        obtain rfl : b :: bs = ys := Except.ok.inj h
        rw [List.mem_cons, ih hl]
        constructor
        · rintro (rfl | ⟨c, hc, hgc⟩)
          · exact ⟨a, List.mem_cons_self, ha⟩
          · exact ⟨c, List.mem_cons_of_mem _ hc, hgc⟩
        · rintro ⟨c, hc, hgc⟩
          rcases List.mem_cons.1 hc with rfl | hc
          · exact .inl (Except.ok.inj (hgc.symm.trans ha))
          · exact .inr ⟨c, hc, hgc⟩

end Alto.Lib
