import Mathlib

/-!
# Runs of a transition function

`step s l = none` says that the step `l` cannot be taken in `s`. A `Run` takes steps that all meet a
side condition on the state before the step; `fun _ _ => True` gives all runs. An invariant is
proved by one step lemma.
-/

namespace Alto.Lib

universe u v

variable {S : Type u} {L : Type v}

/-- A run from one state to another along a list of steps that all meet `ok`. -/
inductive Run (step : S → L → Option S) (ok : S → L → Prop) : S → List L → S → Prop
  | nil (s : S) : Run step ok s [] s
  | cons {s s' s'' : S} {l : L} {ls : List L} (hok : ok s l) (h : step s l = some s')
      (hr : Run step ok s' ls s'') : Run step ok s (l :: ls) s''

namespace Run

variable {step : S → L → Option S} {ok : S → L → Prop} {s s' : S} {ls : List L}

/-- What every step keeps, every run keeps. -/
theorem invariant {I : S → Prop} (hr : Run step ok s ls s') (h0 : I s)
    (hstep : ∀ s l s', I s → ok s l → step s l = some s' → I s') : I s' := by
  induction hr with
  | nil => exact h0
  | cons hok h _ ih => exact ih (hstep _ _ _ h0 hok h)

/-- A run whose steps meet a condition meets every weaker one. -/
theorem mono {ok' : S → L → Prop} (hr : Run step ok s ls s') (h : ∀ s l, ok s l → ok' s l) :
    Run step ok' s ls s' := by
  induction hr with
  | nil s => exact .nil s
  | cons hok hstep _ ih => exact .cons (h _ _ hok) hstep ih

end Run

/-- A loop over a list: what holds of no elements and is kept, with one more element, by each round
holds of the whole list in the end. -/
theorem foldl_prefix {A : Type*} {f : S → A → S} {P : List A → S → Prop}
    (hstep : ∀ l s a, P l s → P (l ++ [a]) (f s a)) (l : List A) {s : S} (h : P [] s) :
    P l (l.foldl f s) := by
  induction l using List.reverseRecOn with
  | nil => exact h
  | append_singleton l a ih =>
    rw [List.foldl_append]
    exact hstep l _ a ih

end Alto.Lib
